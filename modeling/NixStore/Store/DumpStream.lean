/-
  NixStore.Store.DumpStream

  How `LocalStore::addToStoreFromDump` (`libstore/local-store.cc`) reads its
  stream: the buffer that is filled first, the temporary tree a long stream is
  unpacked into, and the `AsyncHashSink` that hashes everything read on another
  thread.
-/

import NixStore.Store.ContentAddress
import NixStore.Util.Restore

namespace NixStore

open Wire

-- ============================================================================
-- Reading and hashing the stream
-- ============================================================================

/-- `FileSerialisationMethod`. -/
inductive FileSerialisationMethod where
  | flat | nixArchive
deriving DecidableEq, Repr

/-- The cast to `FileIngestionMethod`. -/
def FileSerialisationMethod.toIngestion : FileSerialisationMethod → FileIngestionMethod
  | .flat => .flat
  | .nixArchive => .nixArchive

/-- `AsyncHashSink`: what its worker has hashed, and the chunks that wait.
    How many chunks the worker takes before each write comes from `turns`. -/
structure AsyncHashSink where
  hashed : Bytes
  chunks : List Bytes
  turns : List Nat

namespace AsyncHashSink

/-- `AsyncHashSink::maxQueued`. -/
def maxQueued : Nat := 64

/-- The worker takes chunks from the queue. -/
def work (n : Nat) (sink : AsyncHashSink) : AsyncHashSink :=
  { sink with
    hashed := sink.hashed ++ (sink.chunks.take n).flatten
    chunks := sink.chunks.drop n }

/-- `AsyncHashSink::operator()`.  It waits until there is room. -/
def write (data : Bytes) (sink : AsyncHashSink) : AsyncHashSink :=
  let sink := { sink.work (sink.turns.headD 0) with turns := sink.turns.tail }
  let sink := sink.work (sink.chunks.length + 1 - maxQueued)
  { sink with chunks := sink.chunks ++ [data] }

/-- `AsyncHashSink::finish`: the worker empties the queue; what was hashed. -/
def finish (sink : AsyncHashSink) : Bytes := (sink.work sink.chunks.length).hashed

end AsyncHashSink

/-- `TeeSource`: a source, by the chunks it will deliver, and the sink that
    gets what is read. -/
structure TeeSource where
  orig : List Bytes
  sink : AsyncHashSink

namespace TeeSource

/-- `orig.read(data, want)`: at most `want` bytes, or the end of the file. -/
def readOrig (want : Nat) : List Bytes → Option (Bytes × List Bytes)
  | [] => none
  | chunk :: rest =>
      if chunk.length ≤ want then some (chunk, rest)
      else some (chunk.take want, chunk.drop want :: rest)

/-- `TeeSource::read`. -/
def read (want : Nat) (source : TeeSource) : Option (Bytes × TeeSource) :=
  (readOrig want source.orig).map fun r => (r.1, { orig := r.2, sink := source.sink.write r.1 })

/-- More than the number of reads that are left. -/
def size (source : TeeSource) : Nat := source.orig.flatten.length + source.orig.length + 1

/-- Read `n` bytes. -/
def drain : Nat → Nat → TeeSource → TeeSource
  | 0, _, source => source
  | _ + 1, 0, source => source
  | rounds + 1, n + 1, source =>
      match source.read (n + 1) with
      | none => source
      | some (got, source) => drain rounds (n + 1 - got.length) source

end TeeSource

/-- The loop that fills the buffer: the buffer, whether it has everything, and
    the source. -/
def fillBuffer (narBufferSize : Nat) : Nat → Bytes → TeeSource → Bytes × Bool × TeeSource
  | 0, dump, source => (dump, false, source)
  | rounds + 1, dump, source =>
      if dump.length < narBufferSize then
        match source.read (min 65536 (narBufferSize - dump.length)) with
        | none => (dump, true, source)
        | some (got, source) => fillBuffer narBufferSize rounds (dump ++ got) source
      else (dump, false, source)

/-- `restorePath` with a method: what is there afterwards, and what was read. -/
def restoreWith (method : FileSerialisationMethod) (source : Bytes) :
    Option File × Except Error Bytes :=
  match method with
  | .flat => (some (.regular false source), .ok source)
  | .nixArchive => restorePath source

/-- The stream once it has been read: the buffer, the tree in the temporary
    directory, if it was needed, and what the sink has hashed. -/
structure ReadDump where
  dump : Bytes
  temp : Option File
  hashed : Bytes

/-- The first half of `addToStoreFromDump`. -/
def readDump (narBufferSize : Nat) (dumpMethod : FileSerialisationMethod) (methodsMatch : Bool)
    (source : TeeSource) : Except Error ReadDump :=
  let (dump, inMemory, source) := fillBuffer narBufferSize source.size [] source
  if inMemory && methodsMatch then .ok { dump, temp := none, hashed := source.sink.finish }
  else
    match restoreWith dumpMethod (dump ++ source.orig.flatten) with
    | (_, .error e) => .error e
    | (temp, .ok read) =>
        let source := source.drain source.size (read.length - dump.length)
        .ok { dump := [], temp, hashed := source.sink.finish }

-- ============================================================================
-- What is hashed
-- ============================================================================

namespace AsyncHashSink

/-- Everything that was written. -/
def written (sink : AsyncHashSink) : Bytes := sink.hashed ++ sink.chunks.flatten

@[simp] theorem written_work (n : Nat) (sink : AsyncHashSink) :
    (sink.work n).written = sink.written := by
  show sink.hashed ++ (sink.chunks.take n).flatten ++ (sink.chunks.drop n).flatten = _
  rw [List.append_assoc, ← List.flatten_append, List.take_append_drop]
  rfl

/-- Whatever the worker does meanwhile, a write adds what it writes. -/
theorem written_write (data : Bytes) (sink : AsyncHashSink) :
    (sink.write data).written = sink.written ++ data := by
  have hpush : ∀ t : AsyncHashSink,
      ({ t with chunks := t.chunks ++ [data] } : AsyncHashSink).written = t.written ++ data := by
    intro t
    simp [written, List.append_assoc]
  rw [write, hpush, written_work]
  show (sink.work (sink.turns.headD 0)).written ++ data = _
  rw [written_work]

/-- The digest is of everything that was written. -/
theorem finish_eq (sink : AsyncHashSink) : sink.finish = sink.written := by
  show sink.hashed ++ (sink.chunks.take sink.chunks.length).flatten = _
  rw [List.take_length]
  rfl

end AsyncHashSink

namespace TeeSource

theorem readOrig_eq_none {want : Nat} {chunks : List Bytes} (h : readOrig want chunks = none) :
    chunks = [] := by
  cases chunks with
  | nil => rfl
  | cons chunk rest =>
      rw [readOrig] at h
      split at h
      · cases h
      · cases h

/-- A read delivers the next bytes, at most as many as wanted, and makes
    progress. -/
theorem readOrig_eq_some {want : Nat} {chunks rest : List Bytes} {got : Bytes} (hwant : 0 < want)
    (h : readOrig want chunks = some (got, rest)) :
    chunks.flatten = got ++ rest.flatten ∧ got.length ≤ want ∧
      rest.flatten.length + rest.length < chunks.flatten.length + chunks.length := by
  cases chunks with
  | nil => cases h
  | cons chunk more =>
      rw [readOrig] at h
      split at h
      · next hle =>
          cases h
          refine ⟨rfl, hle, ?_⟩
          simp only [List.flatten_cons, List.length_append, List.length_cons]
          omega
      · next hlt =>
          cases h
          refine ⟨?_, by rw [List.length_take]; omega, ?_⟩
          · rw [List.flatten_cons, List.flatten_cons, ← List.append_assoc, List.take_append_drop]
          · simp only [List.flatten_cons, List.length_append, List.length_cons, List.length_drop]
            omega

theorem read_eq_none {want : Nat} {source : TeeSource} (h : source.read want = none) :
    source.orig = [] :=
  readOrig_eq_none (Option.map_eq_none_iff.mp h)

theorem read_eq_some {want : Nat} {source source' : TeeSource} {got : Bytes} (hwant : 0 < want)
    (h : source.read want = some (got, source')) :
    source.orig.flatten = got ++ source'.orig.flatten ∧ got.length ≤ want ∧
      source'.size < source.size ∧ source'.sink.written = source.sink.written ++ got := by
  obtain ⟨⟨got', rest⟩, hread, heq⟩ := Option.map_eq_some_iff.mp h
  cases heq
  obtain ⟨hflat, hle, hsize⟩ := readOrig_eq_some hwant hread
  refine ⟨hflat, hle, ?_, AsyncHashSink.written_write _ _⟩
  show rest.flatten.length + rest.length + 1 < source.orig.flatten.length + source.orig.length + 1
  omega

/-- Draining writes the bytes that are read. -/
theorem written_drain (rounds n : Nat) (source : TeeSource) (hrounds : source.size ≤ rounds)
    (hn : n ≤ source.orig.flatten.length) :
    (source.drain rounds n).sink.written
      = source.sink.written ++ source.orig.flatten.take n := by
  induction rounds generalizing n source with
  | zero => exact absurd hrounds (by unfold size; omega)
  | succ rounds ih =>
      cases n with
      | zero => rw [drain, List.take_zero, List.append_nil]
      | succ n =>
          rw [drain]
          cases hread : source.read (n + 1) with
          | none =>
              rw [read_eq_none hread] at hn
              exact absurd hn (by simp)
          | some r =>
              obtain ⟨got, source'⟩ := r
              obtain ⟨hflat, hle, hsize, hwritten⟩ := read_eq_some (Nat.succ_pos n) hread
              have hleft : n + 1 - got.length ≤ source'.orig.flatten.length := by
                rw [hflat, List.length_append] at hn
                omega
              show (source'.drain rounds (n + 1 - got.length)).sink.written = _
              rw [ih _ source' (by omega) hleft, hwritten, hflat, List.take_append,
                List.take_of_length_le hle, List.append_assoc]

end TeeSource

/-- What the loop leaves: the buffer is the start of the stream, it has
    everything exactly if the stream is shorter than the buffer, and what is in
    it was written to the sink. -/
theorem fillBuffer_outcome (narBufferSize rounds : Nat) (dump : Bytes) (source : TeeSource)
    (hrounds : source.size ≤ rounds) (hdump : dump.length ≤ narBufferSize)
    (hsink : source.sink.written = dump) :
    ∃ dump' inMemory source', fillBuffer narBufferSize rounds dump source
        = (dump', inMemory, source') ∧
      dump' = (dump ++ source.orig.flatten).take narBufferSize ∧
      inMemory = decide ((dump ++ source.orig.flatten).length < narBufferSize) ∧
      source'.orig.flatten = (dump ++ source.orig.flatten).drop narBufferSize ∧
      source'.sink.written = dump' := by
  induction rounds generalizing dump source with
  | zero => exact absurd hrounds (by unfold TeeSource.size; omega)
  | succ rounds ih =>
      rw [fillBuffer]
      by_cases hlt : dump.length < narBufferSize
      · rw [if_pos hlt]
        cases hread : source.read (min 65536 (narBufferSize - dump.length)) with
        | none =>
            have hend : source.orig = [] := TeeSource.read_eq_none hread
            refine ⟨dump, true, source, rfl, ?_, ?_, ?_, hsink⟩
            · rw [hend, List.flatten_nil, List.append_nil, List.take_of_length_le hdump]
            · rw [hend, List.flatten_nil, List.append_nil, decide_eq_true hlt]
            · rw [hend, List.flatten_nil, List.append_nil, List.drop_eq_nil_of_le hdump]
        | some r =>
            obtain ⟨got, source'⟩ := r
            have hwant : 0 < min 65536 (narBufferSize - dump.length) := by omega
            obtain ⟨hflat, hle, hsize, hwritten⟩ := TeeSource.read_eq_some hwant hread
            have hdump' : (dump ++ got).length ≤ narBufferSize := by
              rw [List.length_append]
              omega
            have hsink' : source'.sink.written = dump ++ got := by rw [hwritten, hsink]
            have hnext := ih (dump ++ got) source' (by omega) hdump' hsink'
            rw [List.append_assoc, ← hflat] at hnext
            exact hnext
      · rw [if_neg hlt]
        have hfull : dump.length = narBufferSize := by omega
        refine ⟨dump, false, source, rfl, ?_, ?_, ?_, hsink⟩
        · rw [← hfull, List.take_left]
        · rw [List.length_append, hfull, eq_comm, decide_eq_false_iff_not]
          omega
        · rw [← hfull, List.drop_left]

/-- The part of a stream that is hashed when it is read as an archive: all of
    it if it fits into the buffer, otherwise the archive it starts with, and
    what else was read into the buffer. -/
def hashedPart (narBufferSize : Nat) (stream : Bytes) : Except Error Bytes :=
  if stream.length < narBufferSize then .ok stream
  else (restorePath stream).2.map fun nar => stream.take (max narBufferSize nar.length)

/-- How a stream is held once it has been read as an archive. -/
inductive Holds (stream : Bytes) : ReadDump → Prop where
  | buffered (hashed : Bytes) : Holds stream { dump := stream, temp := none, hashed }
  | unpacked {f : File} {nar : Bytes} (hashed : Bytes) (h : restorePath stream = (some f, .ok nar)) :
      Holds stream { dump := [], temp := some f, hashed }

/-- The first half for an archive that is hashed as one.  The chunks and the
    worker of the hash sink do not matter. -/
theorem readDump_archive (narBufferSize : Nat) (chunks : List Bytes) (turns : List Nat) :
    match hashedPart narBufferSize chunks.flatten with
    | .error e => readDump narBufferSize .nixArchive true ⟨chunks, ⟨[], [], turns⟩⟩ = .error e
    | .ok hashed => ∃ dump, dump.hashed = hashed ∧ Holds chunks.flatten dump ∧
        readDump narBufferSize .nixArchive true ⟨chunks, ⟨[], [], turns⟩⟩ = .ok dump := by
  obtain ⟨dump, inMemory, source, hfill, (hdump : dump = chunks.flatten.take narBufferSize),
      (hmem : inMemory = decide (chunks.flatten.length < narBufferSize)),
      (hrest : source.orig.flatten = chunks.flatten.drop narBufferSize), hsink⟩ :=
    fillBuffer_outcome narBufferSize _ [] ⟨chunks, ⟨[], [], turns⟩⟩ (Nat.le_refl _)
      (Nat.zero_le _) rfl
  have hall : dump ++ source.orig.flatten = chunks.flatten := by
    rw [hdump, hrest, List.take_append_drop]
  rw [hashedPart, readDump, hfill]
  by_cases hlt : chunks.flatten.length < narBufferSize
  · have hwhole : dump = chunks.flatten := by
      rw [hdump, List.take_of_length_le (Nat.le_of_lt hlt)]
    rw [if_pos hlt]
    simp only [hmem, decide_eq_true hlt, Bool.true_and, if_true]
    refine ⟨_, ?_, ?_, rfl⟩
    · rw [AsyncHashSink.finish_eq, hsink, hwhole]
    · rw [hwhole]
      exact .buffered _
  · rw [if_neg hlt]
    simp only [hmem, decide_eq_false hlt, Bool.false_and, Bool.false_eq_true, if_false, hall,
      restoreWith]
    cases hrestore : restorePath chunks.flatten with
    | mk tree result =>
        cases result with
        | error e => rfl
        | ok nar =>
            obtain ⟨f, rfl, -, -, hstart⟩ := restorePath_eq_ok.mp hrestore
            refine ⟨_, ?_, .unpacked _ hrestore, rfl⟩
            have hlen : dump.length = narBufferSize := by
              rw [hdump, List.length_take]
              omega
            have hmore : nar.length - dump.length ≤ source.orig.flatten.length := by
              have hle := hstart.length_le
              rw [← hall, List.length_append] at hle
              omega
            show (source.drain source.size (nar.length - dump.length)).sink.finish = _
            rw [AsyncHashSink.finish_eq, TeeSource.written_drain _ _ _ (Nat.le_refl _) hmore, hsink,
              hdump, hrest, ← hdump, hlen, hdump, ← List.take_add]
            congr 1
            omega

end NixStore
