/-
  NixStore.Util.StreamAdapters

  The adapters `sinkToSource` and `sourceToSink` of `libutil/serialise.cc`,
  which run a writer or a reader as a coroutine.

  Both sides are buffered, so what crosses from one coroutine to the other are
  the pieces a `BufferedSink` hands on (`BufferedSink.pieces`).  A suspended
  writer is the list of the pieces it has still to yield, the current one in
  front; a suspended reader is the list of the sizes it has still to read, the
  read it waits in in front.
-/

import NixStore.Util.Serialise
import NixStore.Lib.Effect

namespace NixStore

open Wire Effect

-- ============================================================================
-- Section 1: Buffered sinks
-- ============================================================================

namespace BufferedSink

/-- `BufferedSink::bufSize`. -/
def bufSize : Nat := 32 * 1024

/-- What `BufferedSink::flush` hands to `writeUnbuffered`. -/
def flush (buffer : Bytes) : List Bytes := if buffer = [] then [] else [buffer]

/-- `BufferedSink::operator()`: what it hands to `writeUnbuffered`, and the
    buffer it leaves.  Data that is copied fits behind what the buffer holds,
    so the loop ends with it. -/
def write (buffer data : Bytes) : List Bytes × Bytes :=
  if data = [] then ([], buffer)
  else if data.length ≥ bufSize - buffer.length then (flush buffer ++ [data], [])
  else if (buffer ++ data).length = bufSize then (flush (buffer ++ data), [])
  else ([], buffer ++ data)

/-- What writes and a last flush hand on. -/
def piecesFrom : Bytes → List Bytes → List Bytes
  | buffer, [] => flush buffer
  | buffer, data :: writes => (write buffer data).1 ++ piecesFrom (write buffer data).2 writes

/-- The pieces in which a buffered sink hands on what is written to it. -/
def pieces (writes : List Bytes) : List Bytes := piecesFrom [] writes

theorem flush_flatten (buffer : Bytes) : (flush buffer).flatten = buffer := by
  unfold flush
  by_cases h : buffer = []
  · rw [if_pos h, h]
    rfl
  · rw [if_neg h]
    exact List.flatten_singleton

theorem flush_ne {buffer piece : Bytes} (h : piece ∈ flush buffer) : piece ≠ [] := by
  unfold flush at h
  by_cases hempty : buffer = []
  · rw [if_pos hempty] at h
    exact absurd h List.not_mem_nil
  · rw [if_neg hempty] at h
    rw [List.mem_singleton.mp h]
    exact hempty

theorem write_flatten (buffer data : Bytes) :
    (write buffer data).1.flatten ++ (write buffer data).2 = buffer ++ data := by
  unfold write
  by_cases hdata : data = []
  · rw [if_pos hdata, hdata]
    simp
  · rw [if_neg hdata]
    by_cases hbig : data.length ≥ bufSize - buffer.length
    · rw [if_pos hbig, List.flatten_append, flush_flatten]
      simp
    · rw [if_neg hbig]
      by_cases hfull : (buffer ++ data).length = bufSize
      · rw [if_pos hfull, flush_flatten, List.append_nil]
      · rw [if_neg hfull]
        rfl

theorem write_ne {buffer data piece : Bytes} (h : piece ∈ (write buffer data).1) : piece ≠ [] := by
  unfold write at h
  by_cases hdata : data = []
  · rw [if_pos hdata] at h
    exact absurd h List.not_mem_nil
  · rw [if_neg hdata] at h
    by_cases hbig : data.length ≥ bufSize - buffer.length
    · rw [if_pos hbig] at h
      rcases List.mem_append.mp h with h | h
      · exact flush_ne h
      · rw [List.mem_singleton.mp h]
        exact hdata
    · rw [if_neg hbig] at h
      by_cases hfull : (buffer ++ data).length = bufSize
      · rw [if_pos hfull] at h
        exact flush_ne h
      · rw [if_neg hfull] at h
        exact absurd h List.not_mem_nil

theorem piecesFrom_flatten (buffer : Bytes) (writes : List Bytes) :
    (piecesFrom buffer writes).flatten = buffer ++ writes.flatten := by
  induction writes generalizing buffer with
  | nil => rw [piecesFrom, flush_flatten, List.flatten_nil, List.append_nil]
  | cons data writes ih =>
      rw [piecesFrom, List.flatten_append, ih, ← List.append_assoc, write_flatten,
        List.flatten_cons, List.append_assoc]

/-- A buffered sink neither loses bytes nor changes their order. -/
theorem pieces_flatten (writes : List Bytes) : (pieces writes).flatten = writes.flatten :=
  piecesFrom_flatten [] writes

theorem piecesFrom_ne {buffer piece : Bytes} {writes : List Bytes}
    (h : piece ∈ piecesFrom buffer writes) : piece ≠ [] := by
  induction writes generalizing buffer with
  | nil => exact flush_ne h
  | cons data writes ih =>
      rcases List.mem_append.mp h with h | h
      · exact write_ne h
      · exact ih h

theorem pieces_ne {piece : Bytes} {writes : List Bytes} (h : piece ∈ pieces writes) : piece ≠ [] :=
  piecesFrom_ne h

end BufferedSink

-- ============================================================================
-- Section 2: What a source should deliver
-- ============================================================================

/-- Reads of given sizes deliver a byte string in order and once, at least one
    byte at a time, and throw `EndOfFile` behind its end, however often. -/
inductive Delivers : Bytes → List Nat → List (Except Error Bytes) → Prop where
  | done (rest : Bytes) : Delivers rest [] []
  | bytes {data rest : Bytes} {size : Nat} {sizes : List Nat}
      {outcomes : List (Except Error Bytes)} :
      data.length ≤ size → (0 < size → data ≠ []) → data ++ rest ≠ [] →
      Delivers rest sizes outcomes →
      Delivers (data ++ rest) (size :: sizes) (.ok data :: outcomes)
  | eof {size : Nat} {sizes : List Nat} {outcomes : List (Except Error Bytes)} :
      Delivers [] sizes outcomes → Delivers [] (size :: sizes) (.error .endOfFile :: outcomes)

theorem Delivers.length_eq {total : Bytes} {sizes : List Nat}
    {outcomes : List (Except Error Bytes)} (h : Delivers total sizes outcomes) :
    outcomes.length = sizes.length := by
  induction h with
  | done rest => rfl
  | bytes _ _ _ _ ih => rw [List.length_cons, List.length_cons, ih]
  | eof _ ih => rw [List.length_cons, List.length_cons, ih]

/-- Of reads that take one piece after another, those that come when all pieces
    have been taken. -/
def readsPastEnd : List Bytes → List Nat → Nat
  | [], sizes => sizes.length
  | _ :: _, [] => 0
  | piece :: pieces, size :: sizes =>
      if piece.length ≤ size then readsPastEnd pieces sizes
      else readsPastEnd (piece.drop size :: pieces) sizes

/-- The first read of a piece that is not empty. -/
theorem Delivers.piece {piece : Bytes} {pieces : List Bytes} {size : Nat} {sizes : List Nat}
    {outcomes : List (Except Error Bytes)} (hne : piece ≠ [])
    (h : Delivers (piece.drop size ++ pieces.flatten) sizes outcomes) :
    Delivers (piece :: pieces).flatten (size :: sizes) (.ok (piece.take size) :: outcomes) := by
  have hsplit : (piece :: pieces).flatten
      = piece.take size ++ (piece.drop size ++ pieces.flatten) := by
    rw [← List.append_assoc, List.take_append_drop, List.flatten_cons]
  have hfull : (piece :: pieces).flatten ≠ [] := by
    intro hnil
    exact hne (List.append_eq_nil_iff.mp hnil).1
  rw [hsplit] at hfull ⊢
  refine Delivers.bytes (List.length_take_le _ _) ?_ hfull h
  intro hpos hnil
  rcases List.take_eq_nil_iff.mp hnil with hzero | hnil
  · omega
  · exact hne hnil

-- ============================================================================
-- Section 3: sinkToSource
-- ============================================================================

/-- `SinkToSource`.  A coroutine that has run to its end has no piece left;
    `runs` counts how often the writer was started. -/
structure SinkToSource where
  coro : Option (List Bytes)
  cur : Bytes
  runs : Nat

namespace SinkToSource

/-- The source that `sinkToSource` returns. -/
def init : SinkToSource where
  coro := none
  cur := []
  runs := 0

/-- The first part of `SinkToSource::read`: the coroutine, created and run up to
    its first piece if there is none. -/
def start (writes : List Bytes) (s : SinkToSource) : List Bytes × SinkToSource :=
  match s.coro with
  | some coro => (coro, s)
  | none =>
      let coro := BufferedSink.pieces writes
      (coro, { s with coro := some coro, runs := s.runs + 1 })

/-- The copy at the end of `SinkToSource::read`.  The coroutine is resumed as soon
    as a piece has been taken. -/
def take (len : Nat) (coro : List Bytes) (s : SinkToSource) : Bytes × SinkToSource :=
  let data := s.cur.take len
  let cur := s.cur.drop len
  if cur = [] ∧ coro ≠ [] then
    let coro := coro.tail
    (data, { s with coro := some coro, cur := coro.headD [] })
  else (data, { s with coro := some coro, cur := cur })

/-- `SinkToSource::read`. -/
def read (writes : List Bytes) (len : Nat) : EStateM Error SinkToSource Bytes := fun s =>
  let hasCoro := s.coro.isSome
  let (coro, s) := s.start writes
  if s.cur = [] then
    let coro := if hasCoro ∧ coro ≠ [] then coro.tail else coro
    match coro with
    | piece :: _ =>
        let (data, s) := take len coro { s with cur := piece }
        .ok data s
    | [] => .error .endOfFile { s with coro := none }
  else
    let (data, s) := s.take len coro
    .ok data s

/-- Reads made one after another, whatever they throw. -/
def reads (writes : List Bytes) : List Nat → SinkToSource → List (Except Error Bytes) × SinkToSource
  | [], s => ([], s)
  | size :: sizes, s =>
      let r := reads writes sizes (final (read writes size) s)
      (result (read writes size) s :: r.1, r.2)

/-- The source has these pieces still to deliver, and has started the writer
    once if at all. -/
inductive Serving (writes : List Bytes) : SinkToSource → List Bytes → Prop where
  | fresh : Serving writes init (BufferedSink.pieces writes)
  | within (piece : Bytes) {cur : Bytes} {pieces : List Bytes} : cur ≠ [] →
      Serving writes ⟨some (piece :: pieces), cur, 1⟩ (cur :: pieces)
  | ended : Serving writes ⟨some [], [], 1⟩ []

/-- The source that has delivered a piece up to `size` bytes. -/
theorem take_within (writes : List Bytes) (size : Nat) (piece cur : Bytes) {pieces : List Bytes}
    (hpieces : ∀ p ∈ pieces, p ≠ []) :
    ∃ s, take size (piece :: pieces) ⟨some (piece :: pieces), cur, 1⟩ = (cur.take size, s) ∧
      Serving writes s (if cur.length ≤ size then pieces else cur.drop size :: pieces) := by
  unfold take
  dsimp only
  by_cases hlast : cur.length ≤ size
  · have hempty : cur.drop size = [] := List.drop_eq_nil_of_le hlast
    rw [if_pos ⟨hempty, List.cons_ne_nil _ _⟩, if_pos hlast]
    refine ⟨_, rfl, ?_⟩
    cases pieces with
    | nil => exact Serving.ended
    | cons next rest => exact Serving.within next (hpieces next List.mem_cons_self)
  · have hrest : cur.drop size ≠ [] := by
      intro hnil
      exact hlast (List.drop_eq_nil_iff.mp hnil)
    rw [if_neg (fun h => hrest h.1), if_neg hlast]
    exact ⟨_, rfl, Serving.within piece hrest⟩

/-- A read while there are pieces. -/
theorem read_piece {writes : List Bytes} {s : SinkToSource} {cur : Bytes} {pieces : List Bytes}
    (h : Serving writes s (cur :: pieces)) (hpieces : ∀ p ∈ cur :: pieces, p ≠ []) (size : Nat) :
    ∃ s', read writes size s = .ok (cur.take size) s' ∧
      Serving writes s' (if cur.length ≤ size then pieces else cur.drop size :: pieces) := by
  have hrest : ∀ p ∈ pieces, p ≠ [] := fun p hp => hpieces p (List.mem_cons_of_mem _ hp)
  generalize hall : cur :: pieces = all at h
  cases h with
  | fresh =>
      -- the first read starts the writer
      obtain ⟨s', htake, hserving⟩ := take_within writes size cur cur hrest
      refine ⟨s', ?_, hserving⟩
      unfold read start init
      simp only [← hall, Option.isSome_none, Bool.false_eq_true, false_and, if_false, if_true,
        Nat.zero_add]
      rw [htake]
  | within piece hne =>
      cases hall
      obtain ⟨s', htake, hserving⟩ := take_within writes size piece cur hrest
      refine ⟨s', ?_, hserving⟩
      unfold read start
      simp only [if_neg hne, htake]
  | ended => cases hall

/-- The first read behind the end forgets the coroutine. -/
theorem read_end {writes : List Bytes} {s : SinkToSource} (h : Serving writes s []) (size : Nat) :
    read writes size s = .error .endOfFile ⟨none, [], 1⟩ := by
  generalize hall : ([] : List Bytes) = all at h
  cases h with
  | fresh =>
      unfold read start init
      simp [← hall]
  | within piece hne => cases hall
  | ended => rfl

theorem take_runs (len : Nat) (coro : List Bytes) (s : SinkToSource) :
    (take len coro s).2.runs = s.runs := by
  unfold take
  dsimp only
  split
  · rfl
  · rfl

theorem read_runs (writes : List Bytes) (size : Nat) (s : SinkToSource) :
    (final (read writes size) s).runs = (s.start writes).2.runs := by
  unfold final read
  dsimp only
  by_cases hcur : (s.start writes).2.cur = []
  · rw [if_pos hcur]
    cases (if s.coro.isSome = true ∧ (s.start writes).1 ≠ [] then (s.start writes).1.tail
        else (s.start writes).1) with
    | nil => rfl
    | cons piece pieces => exact take_runs _ _ _
  · rw [if_neg hcur]
    exact take_runs _ _ _

/-- Without a coroutine a read starts the writer, which counts. -/
theorem read_restart (writes : List Bytes) (size runs : Nat) :
    (final (read writes size) ⟨none, [], runs⟩).runs = runs + 1 := read_runs _ _ _

theorem runs_le_reads (writes : List Bytes) (sizes : List Nat) (s : SinkToSource) :
    s.runs ≤ (reads writes sizes s).2.runs := by
  induction sizes generalizing s with
  | nil => exact Nat.le_refl _
  | cons size sizes ih =>
      refine Nat.le_trans ?_ (ih _)
      rw [read_runs]
      unfold start
      cases s.coro with
      | none => exact Nat.le_succ _
      | some coro => exact Nat.le_refl _

theorem Serving.runs_le {writes : List Bytes} {s : SinkToSource} {pieces : List Bytes}
    (h : Serving writes s pieces) : s.runs ≤ 1 := by
  cases h with
  | fresh => exact Nat.zero_le _
  | within piece hne => exact Nat.le_refl _
  | ended => exact Nat.le_refl _

/-- Up to one read behind the end all is as it should be; a second one starts the
    writer again. -/
theorem reads_serving {writes : List Bytes} (sizes : List Nat) {s : SinkToSource}
    {pieces : List Bytes} (h : Serving writes s pieces) (hpieces : ∀ p ∈ pieces, p ≠ []) :
    (readsPastEnd pieces sizes ≤ 1 →
      Delivers pieces.flatten sizes (reads writes sizes s).1 ∧ (reads writes sizes s).2.runs ≤ 1) ∧
    (2 ≤ readsPastEnd pieces sizes → 2 ≤ (reads writes sizes s).2.runs) := by
  -- on the reads: a piece that is not used up stays for the next one
  induction sizes generalizing s pieces with
  | nil =>
      refine ⟨fun _ => ⟨Delivers.done _, h.runs_le⟩, fun htwo => ?_⟩
      cases pieces with
      | nil => exact absurd htwo (by decide)
      | cons piece pieces =>
          rw [readsPastEnd] at htwo
          omega
  | cons size sizes ih =>
      cases pieces with
      | nil =>
          have hread := read_end h size
          have hstep : reads writes (size :: sizes) s
              = (.error .endOfFile :: (reads writes sizes ⟨none, [], 1⟩).1,
                (reads writes sizes ⟨none, [], 1⟩).2) := by
            rw [reads, result, final, hread]
          rw [hstep]
          -- past the end the writer is started once more
          refine ⟨fun hone => ?_, fun htwo => ?_⟩
          · have hlast : sizes = [] := List.length_eq_zero_iff.mp (by
              rw [readsPastEnd, List.length_cons] at hone
              omega)
            rw [hlast]
            exact ⟨Delivers.eof (Delivers.done []), Nat.le_refl _⟩
          · cases sizes with
            | nil =>
                rw [readsPastEnd, List.length_singleton] at htwo
                omega
            | cons next rest =>
                have hruns := runs_le_reads writes rest (final (read writes next) ⟨none, [], 1⟩)
                rw [read_restart] at hruns
                exact hruns
      | cons cur pieces =>
          obtain ⟨s', hread, hserving⟩ := read_piece h hpieces size
          have hstep : reads writes (size :: sizes) s
              = (.ok (cur.take size) :: (reads writes sizes s').1, (reads writes sizes s').2) := by
            rw [reads, result, final, hread]
          have hcur : cur ≠ [] := hpieces cur List.mem_cons_self
          have hrest : ∀ p ∈ pieces, p ≠ [] := fun p hp => hpieces p (List.mem_cons_of_mem _ hp)
          rw [hstep, readsPastEnd]
          -- the read takes the rest of the piece
          by_cases hlast : cur.length ≤ size
          · rw [if_pos hlast] at hserving ⊢
            obtain ⟨hone, htwo⟩ := ih hserving hrest
            refine ⟨fun h => ⟨Delivers.piece hcur ?_, (hone h).2⟩, htwo⟩
            rw [List.drop_eq_nil_of_le hlast]
            exact (hone h).1
          · rw [if_neg hlast] at hserving ⊢
            obtain ⟨hone, htwo⟩ := ih hserving (by
              intro p hp
              rcases List.mem_cons.mp hp with rfl | hp
              · exact fun hnil => hlast (List.drop_eq_nil_iff.mp hnil)
              · exact hrest p hp)
            exact ⟨fun h => ⟨Delivers.piece hcur (hone h).1, (hone h).2⟩, htwo⟩

/-- The source delivers what the writer writes, as it should, and runs the writer
    no more than once. -/
def DeliversOnce (writes : List Bytes) (sizes : List Nat) : Prop :=
  Delivers writes.flatten sizes (reads writes sizes init).1 ∧ (reads writes sizes init).2.runs ≤ 1

theorem deliversOnce_iff (writes : List Bytes) (sizes : List Nat) :
    DeliversOnce writes sizes ↔ readsPastEnd (BufferedSink.pieces writes) sizes ≤ 1 := by
  obtain ⟨hone, htwo⟩ := reads_serving sizes (@Serving.fresh writes)
    (fun _ => BufferedSink.pieces_ne)
  rw [BufferedSink.pieces_flatten] at hone
  constructor
  · rintro ⟨-, hruns⟩
    by_contra hmany
    have := htwo (by omega)
    omega
  · exact hone

end SinkToSource

-- ============================================================================
-- Section 4: sourceToSink
-- ============================================================================

/-- The reader of a `SourceToSink`, as a coroutine. -/
inductive ReaderCoro where
  /-- It has not run yet. -/
  | created
  /-- It waits for more in the first of these reads. -/
  | suspended (size : Nat) (sizes : List Nat)
  /-- It has returned. -/
  | returned
deriving DecidableEq

/-- `SourceToSink`, with what the reads of its reader returned or threw so far.
    The reader reads the sizes `toRead` and goes on after an exception. -/
structure SourceToSink where
  toRead : List Nat
  coro : Option ReaderCoro
  cur : Bytes
  outcomes : List (Except Error Bytes)

namespace SourceToSink

/-- The sink that `sourceToSink` returns. -/
def init (sizes : List Nat) : SourceToSink where
  toRead := sizes
  coro := none
  cur := []
  outcomes := []

/-- The reader runs until it has returned or a read finds nothing, where it
    yields. -/
def runReader : List Nat → SourceToSink → SourceToSink
  | [], s => { s with coro := some .returned }
  | size :: sizes, s =>
      if s.cur = [] then { s with coro := some (.suspended size sizes) }
      else runReader sizes { s with
        cur := s.cur.drop size
        outcomes := s.outcomes ++ [.ok (s.cur.take size)] }

/-- `(*coro)(eof)`, for a coroutine that has not returned. -/
def resume (eof : Bool) (coro : ReaderCoro) (s : SourceToSink) : SourceToSink :=
  match coro with
  | .created => runReader s.toRead s
  | .suspended size sizes =>
      if eof then runReader sizes { s with outcomes := s.outcomes ++ [.error .endOfFile] }
      else runReader sizes { s with
        cur := s.cur.drop size
        outcomes := s.outcomes ++ [.ok (s.cur.take size)] }
  | .returned => s

/-- `SourceToSink::writeUnbuffered`.  A reader that has returned may not be
    given more. -/
def writeUnbuffered (piece : Bytes) : EStateM Error SourceToSink Unit := fun s =>
  if piece = [] then .ok () s
  else
    let s := { s with cur := piece }
    let coro := s.coro.getD .created
    let s := { s with coro := some coro }
    if coro = .returned then .error (.assertion "unreachable") s
    else .ok () (s.resume false coro)

/-- `SourceToSink::operator()`, which is that of `BufferedSink`, for writes made
    one after another; returns the buffer that is left. -/
def writeAll : Bytes → List Bytes → EStateM Error SourceToSink Bytes
  | buffer, [] => pure buffer
  | buffer, data :: writes => do
      (BufferedSink.write buffer data).1.forM writeUnbuffered
      writeAll (BufferedSink.write buffer data).2 writes

/-- `SourceToSink::finish`. -/
def finish (buffer : Bytes) : EStateM Error SourceToSink Unit := do
  (BufferedSink.flush buffer).forM writeUnbuffered
  modify fun s =>
    match s.coro with
    | none => s
    | some .returned => s
    | some coro => s.resume true coro

/-- Writes and `finish`. -/
def run (writes : List Bytes) : EStateM Error SourceToSink Unit := do
  let buffer ← writeAll [] writes
  finish buffer

/-- The reader gets what is written, as it should, and is not left suspended. -/
def DeliversAll (writes : List Bytes) (sizes : List Nat) : Prop :=
  ∃ s, run writes (init sizes) = .ok () s ∧ Delivers writes.flatten sizes s.outcomes ∧
    ∀ size rest, s.coro ≠ some (.suspended size rest)

/-- Reads that take one piece after another ask for every piece: they do not stop
    while one is still to come. -/
def AsksForAll : List Bytes → List Nat → Prop
  | piece :: next :: pieces, size :: sizes =>
      if piece.length ≤ size then sizes ≠ [] ∧ AsksForAll (next :: pieces) sizes
      else AsksForAll (piece.drop size :: next :: pieces) sizes
  | _ :: _ :: _, [] => False
  | _, _ => True

/-- Writing is handing on the pieces. -/
theorem run_eq (writes : List Bytes) (s : SourceToSink) :
    run writes s = (do (BufferedSink.pieces writes).forM writeUnbuffered; finish []) s := by
  have hgo : ∀ (writes : List Bytes) (buffer : Bytes) (s : SourceToSink),
      (do let buffer ← writeAll buffer writes; finish buffer) s
        = (do (BufferedSink.piecesFrom buffer writes).forM writeUnbuffered; finish []) s := by
    intro writes
    induction writes with
    | nil =>
        intro buffer s
        rw [BufferedSink.piecesFrom]
        rfl
    | cons data writes ih =>
        intro buffer s
        rw [BufferedSink.piecesFrom, forM_append, writeAll, bind_run, bind_run, bind_run, bind_run]
        cases (BufferedSink.write buffer data).1.forM writeUnbuffered s with
        | error e s' => rfl
        | ok u s' =>
            have hrest := ih (BufferedSink.write buffer data).2 s'
            rw [bind_run, bind_run] at hrest
            exact hrest
  exact hgo writes [] s

/-- The pieces a reader has before it that holds the rest `cur` of one. -/
def front (cur : Bytes) (pieces : List Bytes) : List Bytes :=
  if cur = [] then pieces else cur :: pieces

/-- A reader that holds the rest `cur` of a piece asks for all pieces that are
    still to come. -/
def Asks (cur : Bytes) (pieces : List Bytes) (sizes : List Nat) : Prop :=
  if cur = [] then sizes ≠ [] ∧ AsksForAll pieces sizes else AsksForAll (cur :: pieces) sizes

theorem asks_step {cur : Bytes} (hcur : cur ≠ []) {pieces : List Bytes} (hpieces : pieces ≠ [])
    (size : Nat) (sizes : List Nat) :
    Asks cur pieces (size :: sizes) ↔ Asks (cur.drop size) pieces sizes := by
  obtain ⟨next, rest, rfl⟩ := List.exists_cons_of_ne_nil hpieces
  unfold Asks
  rw [if_neg hcur, AsksForAll]
  by_cases hlast : cur.length ≤ size
  · rw [if_pos hlast, if_pos (List.drop_eq_nil_of_le hlast)]
  · have hrest : cur.drop size ≠ [] := fun hnil => hlast (List.drop_eq_nil_iff.mp hnil)
    rw [if_neg hlast, if_neg hrest]

theorem readsPastEnd_step {cur : Bytes} (hcur : cur ≠ []) (pieces : List Bytes) (size : Nat)
    (sizes : List Nat) : readsPastEnd (front cur pieces) (size :: sizes)
      = readsPastEnd (front (cur.drop size) pieces) sizes := by
  unfold front
  rw [if_neg hcur, readsPastEnd]
  by_cases hlast : cur.length ≤ size
  · rw [if_pos hlast, if_pos (List.drop_eq_nil_of_le hlast)]
  · have hrest : cur.drop size ≠ [] := fun hnil => hlast (List.drop_eq_nil_iff.mp hnil)
    rw [if_neg hlast, if_neg hrest]

theorem Delivers.take {cur rest : Bytes} (hcur : cur ≠ []) {size : Nat} {sizes : List Nat}
    {outcomes : List (Except Error Bytes)} (h : Delivers (cur.drop size ++ rest) sizes outcomes) :
    Delivers (cur ++ rest) (size :: sizes) (.ok (cur.take size) :: outcomes) := by
  have hflat (u : Bytes) : u ++ [rest].flatten = u ++ rest := by simp
  have hpiece : Delivers (cur :: [rest]).flatten (size :: sizes)
      (.ok (cur.take size) :: outcomes) := Delivers.piece hcur ((hflat _).symm ▸ h)
  rw [List.flatten_cons, hflat] at hpiece
  exact hpiece

/-- How a reader that holds `s.cur` runs: it returns with reads left undone in
    what it holds, or takes all of it and waits for more. -/
theorem runReader_spec (sizes : List Nat) (s : SourceToSink) :
    ∃ outcomes, (runReader sizes s).outcomes = s.outcomes ++ outcomes ∧
      (((runReader sizes s).coro = some .returned ∧
          (∀ rest, Delivers (s.cur ++ rest) sizes outcomes) ∧
          (∀ pieces, pieces ≠ [] → ¬ Asks s.cur pieces sizes) ∧
          ∀ pieces, readsPastEnd (front s.cur pieces) sizes = 0) ∨
        ∃ size later, (runReader sizes s).coro = some (.suspended size later) ∧
          (runReader sizes s).cur = [] ∧
          (∀ rest more, Delivers rest (size :: later) more →
            Delivers (s.cur ++ rest) sizes (outcomes ++ more)) ∧
          (∀ pieces, pieces ≠ [] →
            (Asks s.cur pieces sizes ↔ AsksForAll pieces (size :: later))) ∧
          ∀ pieces, readsPastEnd (front s.cur pieces) sizes
            = readsPastEnd pieces (size :: later)) := by
  induction sizes generalizing s with
  | nil =>
      refine ⟨[], (List.append_nil _).symm, Or.inl ⟨rfl, fun rest => Delivers.done _, ?_, ?_⟩⟩
      · intro pieces hpieces hasks
        obtain ⟨next, rest, rfl⟩ := List.exists_cons_of_ne_nil hpieces
        unfold Asks at hasks
        by_cases hcur : s.cur = []
        · rw [if_pos hcur] at hasks
          exact hasks.1 rfl
        · rw [if_neg hcur, AsksForAll] at hasks
          exact hasks
      · intro pieces
        cases front s.cur pieces with
        | nil => rfl
        | cons piece rest => rw [readsPastEnd]
  | cons size sizes ih =>
      by_cases hcur : s.cur = []
      · -- nothing is left, so the reader yields in this read
        have hrun : runReader (size :: sizes) s
            = { s with coro := some (.suspended size sizes) } := by
          rw [runReader, if_pos hcur]
        rw [hrun]
        refine ⟨[], (List.append_nil _).symm, Or.inr ⟨size, sizes, rfl, hcur, ?_, ?_, ?_⟩⟩
        · intro rest more hmore
          rw [hcur]
          exact hmore
        · intro pieces hpieces
          unfold Asks
          rw [if_pos hcur]
          exact ⟨fun h => h.2, fun h => ⟨List.cons_ne_nil _ _, h⟩⟩
        · intro pieces
          unfold front
          rw [if_pos hcur]
      · have hrun : runReader (size :: sizes) s = runReader sizes { s with
            cur := s.cur.drop size
            outcomes := s.outcomes ++ [.ok (s.cur.take size)] } := by
          rw [runReader, if_neg hcur]
        rw [hrun]
        obtain ⟨outcomes, houtcomes, hcases⟩ := ih { s with
            cur := s.cur.drop size
            outcomes := s.outcomes ++ [.ok (s.cur.take size)] }
        refine ⟨.ok (s.cur.take size) :: outcomes, ?_, ?_⟩
        · rw [houtcomes, List.append_assoc, List.singleton_append]
        · rcases hcases with ⟨hcoro, hdel, hasks, hpast⟩ |
            ⟨n, later, hcoro, hempty, hdel, hasks, hpast⟩
          · refine Or.inl ⟨hcoro, fun rest => Delivers.take hcur (hdel rest), ?_, ?_⟩
            · intro pieces hpieces
              rw [asks_step hcur hpieces]
              exact hasks pieces hpieces
            · intro pieces
              rw [readsPastEnd_step hcur]
              exact hpast pieces
          · refine Or.inr ⟨n, later, hcoro, hempty, ?_, ?_, ?_⟩
            · intro rest more hmore
              exact Delivers.take hcur (hdel rest more hmore)
            · intro pieces hpieces
              rw [asks_step hcur hpieces]
              exact hasks pieces hpieces
            · intro pieces
              rw [readsPastEnd_step hcur]
              exact hpast pieces

/-- What becomes of a reader of `sizes` to which all of these pieces are handed,
    and the end of the stream. -/
structure Settles (pieces : List Bytes) (sizes : List Nat) (before : List (Except Error Bytes))
    (r : EStateM.Result Error SourceToSink Unit) : Prop where
  delivers : AsksForAll pieces sizes → readsPastEnd pieces sizes ≤ 1 → ∃ s outcomes,
    r = .ok () s ∧ s.outcomes = before ++ outcomes ∧ Delivers pieces.flatten sizes outcomes ∧
      ∀ size later, s.coro ≠ some (.suspended size later)
  aborts : ¬ AsksForAll pieces sizes → ∃ e s, r = .error e s
  suspends : AsksForAll pieces sizes → 2 ≤ readsPastEnd pieces sizes → ∃ s size later,
    r = .ok () s ∧ s.coro = some (.suspended size later)

/-- The last step of `finish`. -/
theorem finish_eq (s : SourceToSink) : finish [] s = .ok () (match s.coro with
    | none => s
    | some .returned => s
    | some coro => s.resume true coro) := rfl

/-- Handing a piece to a reader that waits is running it from the read it waits
    in. -/
theorem writeUnbuffered_suspended {s : SourceToSink} {size : Nat} {later : List Nat}
    (hcoro : s.coro = some (.suspended size later)) {piece : Bytes} (hne : piece ≠ []) :
    writeUnbuffered piece s = .ok () (runReader (size :: later) { s with cur := piece }) := by
  unfold writeUnbuffered
  rw [if_neg hne]
  simp only [hcoro, Option.getD_some, resume, Bool.false_eq_true, if_false, reduceCtorEq,
    runReader, if_neg hne]

theorem writeUnbuffered_returned {s : SourceToSink} (hcoro : s.coro = some .returned)
    {piece : Bytes} (hne : piece ≠ []) : ∃ e s', writeUnbuffered piece s = .error e s' := by
  unfold writeUnbuffered
  rw [if_neg hne]
  simp only [hcoro, Option.getD_some, if_true]
  exact ⟨_, _, rfl⟩

theorem feed_cons (piece : Bytes) (pieces : List Bytes) (s : SourceToSink) :
    (do (piece :: pieces).forM writeUnbuffered; finish []) s
      = (writeUnbuffered piece >>= fun _ => do pieces.forM writeUnbuffered; finish []) s := by
  show ((writeUnbuffered piece >>= fun _ => pieces.forM writeUnbuffered) >>= fun _ => finish []) s
    = _
  rw [bind_run, bind_run, bind_run]
  cases writeUnbuffered piece s with
  | error e s' => rfl
  | ok u s' =>
      dsimp only
      rw [bind_run]

/-- From the moment a piece is handed to the reader to the end. -/
theorem feed_spec (pieces : List Bytes) (hpieces : ∀ p ∈ pieces, p ≠ []) {cur : Bytes}
    (hcur : cur ≠ []) (sizes : List Nat) (s : SourceToSink) (hs : s.cur = cur) :
    Settles (cur :: pieces) sizes s.outcomes
      ((do pieces.forM writeUnbuffered; finish []) (runReader sizes s)) := by
  induction pieces generalizing cur sizes s with
  | nil =>
      obtain ⟨outcomes, houtcomes, hcases⟩ := runReader_spec sizes s
      have hfinish : (do ([] : List Bytes).forM writeUnbuffered; finish []) (runReader sizes s)
          = finish [] (runReader sizes s) := rfl
      have hall : AsksForAll [cur] sizes := by
        cases sizes <;> exact trivial
      have hfront : front s.cur [] = [cur] := by rw [hs, front, if_neg hcur]
      rw [hfinish, finish_eq]
      rcases hcases with ⟨hcoro, hdel, -, hpast⟩ | ⟨size, later, hcoro, hempty, hdel, -, hpast⟩
      · -- the reader has returned before the end of the stream
        have hzero : readsPastEnd [cur] sizes = 0 := hfront ▸ hpast []
        rw [hcoro]
        refine ⟨fun _ _ => ⟨_, outcomes, rfl, houtcomes, ?_, ?_⟩, fun h => absurd hall h, ?_⟩
        · have hd := hdel []
          rw [hs] at hd
          simpa using hd
        · intro size later
          rw [hcoro]
          exact fun h => by cases h
        · intro _ htwo
          omega
      · -- the read it waits in throws; another one yields again
        have hlen : readsPastEnd [cur] sizes = later.length + 1 := by
          rw [← hfront, hpast, readsPastEnd, List.length_cons]
        rw [hcoro]
        simp only [resume, if_true]
        cases later with
        | nil =>
            refine ⟨fun _ _ => ⟨_, outcomes ++ [.error .endOfFile], rfl, ?_, ?_, ?_⟩,
              fun h => absurd hall h, ?_⟩
            · rw [runReader, houtcomes, List.append_assoc]
            · have hd := hdel [] _ (Delivers.eof (Delivers.done []))
              rw [hs] at hd
              simpa using hd
            · intro size later
              rw [runReader]
              exact fun h => by cases h
            · intro _ htwo
              rw [hlen] at htwo
              exact absurd htwo (by simp)
        | cons next rest =>
            refine ⟨fun _ hone => ?_, fun h => absurd hall h, fun _ _ => ⟨_, next, rest, rfl, ?_⟩⟩
            · rw [hlen, List.length_cons] at hone
              omega
            · rw [runReader, if_pos hempty]
  | cons next pieces ih =>
      have hnext : next ≠ [] := hpieces next List.mem_cons_self
      have hrest : ∀ p ∈ pieces, p ≠ [] := fun p hp => hpieces p (List.mem_cons_of_mem _ hp)
      obtain ⟨outcomes, houtcomes, hcases⟩ := runReader_spec sizes s
      have hasks : Asks s.cur (next :: pieces) sizes ↔ AsksForAll (cur :: next :: pieces) sizes := by
        rw [hs, Asks, if_neg hcur]
      have hfront : front s.cur (next :: pieces) = cur :: next :: pieces := by
        rw [hs, front, if_neg hcur]
      rw [feed_cons]
      rcases hcases with ⟨hcoro, -, hnot, -⟩ | ⟨size, later, hcoro, -, hdel, hiff, hpast⟩
      · -- a piece for a reader that has returned
        have hno := hnot (next :: pieces) (List.cons_ne_nil _ _)
        rw [hasks] at hno
        obtain ⟨e, s', hthrow⟩ := writeUnbuffered_returned hcoro hnext
        exact ⟨fun h => absurd h hno, fun _ => ⟨e, s', bind_of_error hthrow⟩, fun h => absurd h hno⟩
      · have hsame := hiff (next :: pieces) (List.cons_ne_nil _ _)
        rw [hasks] at hsame
        have hcount := hpast (next :: pieces)
        rw [hfront] at hcount
        rw [bind_of_ok (writeUnbuffered_suspended hcoro hnext)]
        have hsettles := ih hrest hnext (size :: later)
          { runReader sizes s with cur := next } rfl
        refine ⟨?_, ?_, ?_⟩
        · intro hall hone
          obtain ⟨t, more, ht, hmore, hdelivers, hcoro'⟩ :=
            hsettles.delivers (hsame.mp hall) (hcount ▸ hone)
          refine ⟨t, outcomes ++ more, ht, ?_, ?_, hcoro'⟩
          · rw [hmore, ← List.append_assoc, ← houtcomes]
          · have hd := hdel _ _ hdelivers
            rw [hs] at hd
            exact hd
        · exact fun hno => hsettles.aborts fun h => hno (hsame.mpr h)
        · exact fun hall htwo => hsettles.suspends (hsame.mp hall) (hcount ▸ htwo)

/-- The sink gives the reader what is written exactly if something is written (or
    nothing is read), the reader asks for all of it, and reads no more than once
    behind the end. -/
theorem deliversAll_iff (writes : List Bytes) (sizes : List Nat) :
    DeliversAll writes sizes ↔
      (BufferedSink.pieces writes = [] → sizes = []) ∧
      AsksForAll (BufferedSink.pieces writes) sizes ∧
      (BufferedSink.pieces writes ≠ [] → readsPastEnd (BufferedSink.pieces writes) sizes ≤ 1) := by
  have hflat := BufferedSink.pieces_flatten writes
  have hne : ∀ p ∈ BufferedSink.pieces writes, p ≠ [] := fun _ => BufferedSink.pieces_ne
  unfold DeliversAll
  rw [run_eq, ← hflat]
  -- without a piece the reader is never started
  cases hpieces : BufferedSink.pieces writes with
  | nil =>
      have hrun : (do ([] : List Bytes).forM writeUnbuffered; finish []) (init sizes)
          = .ok () (init sizes) := rfl
      rw [hrun]
      constructor
      · rintro ⟨s, hs, hdel, -⟩
        cases hs
        have hnil : sizes = [] := List.length_eq_zero_iff.mp hdel.length_eq.symm
        rw [hnil]
        exact ⟨fun _ => rfl, trivial, fun h => absurd rfl h⟩
      · rintro ⟨hnil, -, -⟩
        rw [hnil rfl]
        refine ⟨_, rfl, Delivers.done _, fun size later h => ?_⟩
        cases h
  | cons piece pieces =>
      rw [hpieces] at hne
      have hpiece : piece ≠ [] := hne piece List.mem_cons_self
      have hfirst : writeUnbuffered piece (init sizes)
          = .ok () (runReader sizes { init sizes with cur := piece, coro := some .created }) := by
        unfold writeUnbuffered
        rw [if_neg hpiece]
        rfl
      -- the first piece starts it, the others resume it
      have hsettles := feed_spec pieces (fun p hp => hne p (List.mem_cons_of_mem _ hp)) hpiece sizes
        { init sizes with cur := piece, coro := some .created } rfl
      rw [feed_cons, bind_of_ok hfirst]
      constructor
      · rintro ⟨s, hs, hdel, hnot⟩
        have hall : AsksForAll (piece :: pieces) sizes := by
          by_contra hno
          obtain ⟨e, s', hthrow⟩ := hsettles.aborts hno
          rw [hs] at hthrow
          cases hthrow
        refine ⟨(fun h => by cases h), hall, fun _ => ?_⟩
        by_contra hmany
        obtain ⟨t, size, later, ht, hcoro⟩ := hsettles.suspends hall (by omega)
        rw [hs] at ht
        cases ht
        exact hnot size later hcoro
      · rintro ⟨-, hall, hone⟩
        obtain ⟨s, outcomes, hs, houtcomes, hdel, hnot⟩ :=
          hsettles.delivers hall (hone (List.cons_ne_nil _ _))
        have hsame : s.outcomes = outcomes := houtcomes
        exact ⟨s, hs, hsame ▸ hdel, hnot⟩

end SourceToSink

-- ============================================================================
-- Section 5: Both adapters
-- ============================================================================

/-- When the adapters deliver every byte once and an end of file that stays. -/
theorem adapters_deliver_iff (writes : List Bytes) (sizes : List Nat) :
    (SinkToSource.DeliversOnce writes sizes ↔
      readsPastEnd (BufferedSink.pieces writes) sizes ≤ 1) ∧
    (SourceToSink.DeliversAll writes sizes ↔
      (BufferedSink.pieces writes = [] → sizes = []) ∧
      SourceToSink.AsksForAll (BufferedSink.pieces writes) sizes ∧
      (BufferedSink.pieces writes ≠ [] →
        readsPastEnd (BufferedSink.pieces writes) sizes ≤ 1)) :=
  ⟨SinkToSource.deliversOnce_iff writes sizes, SourceToSink.deliversAll_iff writes sizes⟩

/-- After `EndOfFile` a third read delivers the first byte again, and a reader
    that reads on is left suspended. -/
theorem adapters_readAgain :
    (SinkToSource.reads [ascii "a"] [1, 1, 1] SinkToSource.init).1
      = [.ok (ascii "a"), .error .endOfFile, .ok (ascii "a")] ∧
    ¬ SinkToSource.DeliversOnce [ascii "a"] [1, 1, 1] ∧
    ¬ SourceToSink.DeliversAll [ascii "a"] [1, 1, 1] := by
  refine ⟨by decide +kernel, ?_, ?_⟩
  · rintro ⟨-, hruns⟩
    exact absurd hruns (by decide +kernel)
  · rintro ⟨s, hs, -, hnot⟩
    have hrun : SourceToSink.run [ascii "a"] (SourceToSink.init [1, 1, 1]) = .ok ()
        { toRead := [1, 1, 1], coro := some (.suspended 1 []), cur := [],
          outcomes := [.ok (ascii "a"), .error .endOfFile] } := rfl
    rw [hrun] at hs
    cases hs
    exact hnot 1 [] rfl

end NixStore
