/-
  NixStore.Util.Buffering

  `BufferedSink::operator()` and `flush` (`libutil/serialise.cc`) on the memory
  of the buffer, and the `HashSink` over them (`libutil/hash.cc`).

  What `writeUnbuffered` has been given and what the buffer still holds are
  together what has been written (`run_spec`).  A sink cannot be made whose
  position is behind the end of its buffer.
-/

import NixStore.Util.Hash

namespace NixStore
namespace Buffering

-- ============================================================================
-- BufferedSink
-- ============================================================================

/-- `BufferedSink`.  The memory of the buffer is not initialised; `out` is what
    `writeUnbuffered` acts on. -/
structure BufferedSink (bufSize : Nat) (σ : Type) where
  buffer : Bytes
  bufPos : Nat
  out : σ
  length_buffer : buffer.length = bufSize
  bufPos_le : bufPos ≤ bufSize

variable {bufSize : Nat} {σ : Type}

namespace BufferedSink

/-- `flush`. -/
def flush (writeUnbuffered : Bytes → σ → σ) (sink : BufferedSink bufSize σ) :
    BufferedSink bufSize σ :=
  if sink.bufPos = 0 then sink
  else
    { sink with
      bufPos := 0
      out := writeUnbuffered (sink.buffer.take sink.bufPos) sink.out
      bufPos_le := Nat.zero_le _ }

/-- `memcpy(buffer.get() + bufPos, …)`, and the position behind it. -/
def copy (sink : BufferedSink bufSize σ) (data : Bytes)
    (hfits : sink.bufPos + data.length ≤ bufSize) : BufferedSink bufSize σ where
  buffer := sink.buffer.take sink.bufPos ++ data ++ sink.buffer.drop (sink.bufPos + data.length)
  bufPos := sink.bufPos + data.length
  out := sink.out
  length_buffer := by
    rw [List.length_append, List.length_append, List.length_take, List.length_drop,
      sink.length_buffer]
    omega
  bufPos_le := hfits

/-- How many bytes are copied. -/
def copied (sink : BufferedSink bufSize σ) (data : Bytes) : Nat :=
  if bufSize - sink.bufPos < data.length then bufSize - sink.bufPos else data.length

theorem copied_fits (sink : BufferedSink bufSize σ) (data : Bytes) :
    sink.bufPos + (data.take (sink.copied data)).length ≤ bufSize := by
  have hle := sink.bufPos_le
  rw [List.length_take, copied]
  split <;> omega

/-- "Flush the buffer when it's full." -/
def flushFull (writeUnbuffered : Bytes → σ → σ) (sink : BufferedSink bufSize σ) :
    BufferedSink bufSize σ :=
  if sink.bufPos = bufSize then sink.flush writeUnbuffered else sink

/-- `operator()`. -/
def write (writeUnbuffered : Bytes → σ → σ) (data : Bytes) (sink : BufferedSink bufSize σ) :
    BufferedSink bufSize σ :=
  if data = [] then sink
  else if bufSize - sink.bufPos ≤ data.length then
    -- bypass the buffer
    { sink.flush writeUnbuffered with
      out := writeUnbuffered data (sink.flush writeUnbuffered).out }
  else
    write writeUnbuffered (data.drop (sink.copied data))
      ((sink.copy (data.take (sink.copied data)) (sink.copied_fits data)).flushFull writeUnbuffered)
termination_by data.length
decreasing_by
  have hpos : 0 < data.length := List.length_pos_iff.mpr ‹_›
  rw [List.length_drop, copied, if_neg (by omega)]
  omega

/-- What the buffer holds. -/
def held (sink : BufferedSink bufSize σ) : Bytes := sink.buffer.take sink.bufPos

end BufferedSink

/-- A call on a buffered sink. -/
inductive SinkCall where
  | write (data : Bytes)
  | flush

namespace SinkCall

/-- What a call writes. -/
def data : SinkCall → Bytes
  | write data => data
  | flush => []

/-- Calls one after another. -/
def run (writeUnbuffered : Bytes → σ → σ) :
    List SinkCall → BufferedSink bufSize σ → BufferedSink bufSize σ
  | [], sink => sink
  | write data :: calls, sink => run writeUnbuffered calls (sink.write writeUnbuffered data)
  | flush :: calls, sink => run writeUnbuffered calls (sink.flush writeUnbuffered)

end SinkCall

-- ============================================================================
-- What is passed on and what is held
-- ============================================================================

section Passed

variable {writeUnbuffered : Bytes → σ → σ} {sink sink' : BufferedSink bufSize σ}

/-- Pass pieces on one after another. -/
def passAll (writeUnbuffered : Bytes → σ → σ) (pieces : List Bytes) (out : σ) : σ :=
  pieces.foldl (fun out piece => writeUnbuffered piece out) out

/-- From one state to the other, some pieces were passed on; with what is held
    now they are what was held before and the data. -/
def Accepts (writeUnbuffered : Bytes → σ → σ) (data : Bytes) (sink sink' : BufferedSink bufSize σ) :
    Prop :=
  ∃ pieces, sink'.out = passAll writeUnbuffered pieces sink.out ∧
    pieces.flatten ++ sink'.held = sink.held ++ data

theorem Accepts.refl (sink : BufferedSink bufSize σ) : Accepts writeUnbuffered [] sink sink :=
  ⟨[], rfl, (List.append_nil _).symm⟩

theorem Accepts.trans {data data' : Bytes} {sink'' : BufferedSink bufSize σ}
    (h : Accepts writeUnbuffered data sink sink')
    (h' : Accepts writeUnbuffered data' sink' sink'') :
    Accepts writeUnbuffered (data ++ data') sink sink'' := by
  obtain ⟨pieces, hout, hflat⟩ := h
  obtain ⟨pieces', hout', hflat'⟩ := h'
  refine ⟨pieces ++ pieces', ?_, ?_⟩
  · rw [hout', hout, passAll, passAll, passAll, List.foldl_append]
  · rw [List.flatten_append, List.append_assoc, hflat', ← List.append_assoc, hflat,
      List.append_assoc]

namespace BufferedSink

theorem flush_spec (sink : BufferedSink bufSize σ) :
    Accepts writeUnbuffered [] sink (sink.flush writeUnbuffered) ∧
      (sink.flush writeUnbuffered).bufPos = 0 := by
  unfold flush
  split
  · next hzero => exact ⟨Accepts.refl sink, hzero⟩
  · refine ⟨⟨[sink.held], rfl, ?_⟩, rfl⟩
    rw [List.flatten_singleton]
    rfl

theorem held_flush (sink : BufferedSink bufSize σ) : (sink.flush writeUnbuffered).held = [] := by
  rw [held, (flush_spec sink).2]
  exact List.take_zero

theorem held_copy (sink : BufferedSink bufSize σ) (data : Bytes)
    (hfits : sink.bufPos + data.length ≤ bufSize) :
    (sink.copy data hfits).held = sink.held ++ data := by
  have hlen : (sink.buffer.take sink.bufPos ++ data).length = sink.bufPos + data.length := by
    rw [List.length_append, List.length_take, sink.length_buffer, Nat.min_eq_left sink.bufPos_le]
  exact List.take_left' hlen

theorem copy_spec (sink : BufferedSink bufSize σ) (data : Bytes)
    (hfits : sink.bufPos + data.length ≤ bufSize) :
    Accepts writeUnbuffered data sink (sink.copy data hfits) :=
  ⟨[], rfl, held_copy sink data hfits⟩

theorem flushFull_spec (sink : BufferedSink bufSize σ) :
    Accepts writeUnbuffered [] sink (sink.flushFull writeUnbuffered) := by
  unfold flushFull
  split
  · exact (flush_spec sink).1
  · exact Accepts.refl sink

/-- The bypass: the buffer is flushed first, so the data comes behind what it
    held. -/
theorem bypass_spec (data : Bytes) (sink : BufferedSink bufSize σ) :
    Accepts writeUnbuffered data sink
      { sink.flush writeUnbuffered with
        out := writeUnbuffered data (sink.flush writeUnbuffered).out } := by
  obtain ⟨pieces, hout, hflat⟩ := (@flush_spec _ _ writeUnbuffered sink).1
  have hempty := @held_flush _ _ writeUnbuffered sink
  rw [hempty, List.append_nil, List.append_nil] at hflat
  refine ⟨pieces ++ [data], ?_, ?_⟩
  · show writeUnbuffered data (sink.flush writeUnbuffered).out = _
    rw [hout, passAll, passAll, List.foldl_append]
    rfl
  · show (pieces ++ [data]).flatten ++ (sink.flush writeUnbuffered).held = _
    rw [hempty, List.append_nil, List.flatten_append, hflat, List.flatten_singleton]

/-- A write passes on or holds all of its data. -/
theorem write_spec (data : Bytes) (sink : BufferedSink bufSize σ) :
    Accepts writeUnbuffered data sink (sink.write writeUnbuffered data) := by
  fun_induction write writeUnbuffered data sink with
  | case1 sink => exact Accepts.refl sink
  | case2 data sink hdata hbig => exact bypass_spec data sink
  | case3 data sink hdata hbig ih =>
      have hcopy := (@copy_spec _ _ writeUnbuffered sink _ (sink.copied_fits data)).trans
        (flushFull_spec _)
      rw [List.append_nil] at hcopy
      have hall := hcopy.trans ih
      rwa [List.take_append_drop] at hall

end BufferedSink

namespace SinkCall

/-- Any calls: what was passed on and what is held are what was written. -/
theorem run_spec (calls : List SinkCall) (sink : BufferedSink bufSize σ) :
    Accepts writeUnbuffered (calls.flatMap data) sink (run writeUnbuffered calls sink) := by
  induction calls generalizing sink with
  | nil => exact Accepts.refl sink
  | cons call calls ih =>
      rw [List.flatMap_cons]
      cases call with
      | write data => exact (sink.write_spec data).trans (ih _)
      | flush => exact (sink.flush_spec).1.trans (ih _)

end SinkCall

/-- With nothing held at the beginning and at the end, what was passed on is
    the data. -/
theorem Accepts.passed {data : Bytes} (h : Accepts writeUnbuffered data sink sink')
    (hbefore : sink.bufPos = 0) (hafter : sink'.bufPos = 0) :
    ∃ pieces, sink'.out = passAll writeUnbuffered pieces sink.out ∧ pieces.flatten = data := by
  obtain ⟨pieces, hout, hflat⟩ := h
  refine ⟨pieces, hout, ?_⟩
  rwa [BufferedSink.held, BufferedSink.held, hbefore, hafter, List.take_zero, List.take_zero,
    List.append_nil, List.nil_append] at hflat

end Passed

-- ============================================================================
-- HashSink
-- ============================================================================

/-- The hash functions of the libraries: `start`, `update` and `finish` on
    their contexts. -/
structure Contexts where
  Ctx : Type
  start : HashAlgorithm → Ctx
  update : HashAlgorithm → Bytes → Ctx → Ctx
  finish : (ha : HashAlgorithm) → Ctx → {bytes : Bytes // bytes.length = regularHashSize ha}

namespace Contexts

variable (lib : Contexts)

/-- What the libraries document: updates with pieces of a message, in order,
    are an update with the message. -/
def Incremental : Prop :=
  ∀ ha pieces, lib.finish ha (passAll (lib.update ha) pieces (lib.start ha)) =
    lib.finish ha (lib.update ha pieces.flatten (lib.start ha))

/-- `nix::finish` into the memory of a new `Hash`. -/
def hashOf (ha : HashAlgorithm) (ctx : lib.Ctx) : Hash where
  algo := ha
  bytes := (lib.finish ha ctx).val
  size_eq := (lib.finish ha ctx).property

/-- `hashString`. -/
def hashString (ha : HashAlgorithm) (s : Bytes) : Hash :=
  lib.hashOf ha (lib.update ha s (lib.start ha))

end Contexts

/-- `HashResult`. -/
structure HashResult where
  hash : Hash
  numBytesDigested : UInt64
deriving DecidableEq

/-- `ctx` and `bytes` of a `HashSink`. -/
structure HashState (lib : Contexts) where
  ctx : lib.Ctx
  bytes : UInt64

/-- `HashSink`; `BufferedSink`'s default size. -/
abbrev HashSink (lib : Contexts) := BufferedSink (32 * 1024) (HashState lib)

namespace HashSink

variable {lib : Contexts} {ha : HashAlgorithm}

/-- `HashSink::HashSink`. -/
def new (lib : Contexts) (ha : HashAlgorithm) (memory : {m : Bytes // m.length = 32 * 1024}) :
    HashSink lib where
  buffer := memory.val
  bufPos := 0
  out := { ctx := lib.start ha, bytes := 0 }
  length_buffer := memory.property
  bufPos_le := Nat.zero_le _

/-- `HashSink::writeUnbuffered`. -/
def writeUnbuffered (lib : Contexts) (ha : HashAlgorithm) (data : Bytes) (s : HashState lib) :
    HashState lib where
  ctx := lib.update ha data s.ctx
  bytes := s.bytes + UInt64.ofNat data.length

/-- `HashSink::currentHash`: the hash is finished on a copy of the context. -/
def currentHash (ha : HashAlgorithm) (sink : HashSink lib) : HashResult × HashSink lib :=
  let flushed := sink.flush (writeUnbuffered lib ha)
  ({ hash := lib.hashOf ha flushed.out.ctx, numBytesDigested := flushed.out.bytes }, flushed)

/-- `HashSink::finish`.  The context cannot be used again. -/
def finish (ha : HashAlgorithm) (sink : HashSink lib) : HashResult :=
  let flushed := sink.flush (writeUnbuffered lib ha)
  { hash := lib.hashOf ha flushed.out.ctx, numBytesDigested := flushed.out.bytes }

/-- A call on a hash sink before `finish`. -/
inductive Call where
  | sink (call : SinkCall)
  | currentHash

/-- What a call writes. -/
def Call.data : Call → Bytes
  | .sink call => call.data
  | .currentHash => []

/-- Calls one after another, and what the calls of `currentHash` return. -/
def run (ha : HashAlgorithm) : List Call → HashSink lib → List HashResult × HashSink lib
  | [], sink => ([], sink)
  | .sink call :: calls, sink =>
      run ha calls (SinkCall.run (writeUnbuffered lib ha) [call] sink)
  | .currentHash :: calls, sink =>
      let (result, flushed) := currentHash ha sink
      let (results, sink') := run ha calls flushed
      (result :: results, sink')

/-- What has been written when `currentHash` is called, call by call. -/
def writtenAt : Bytes → List Call → List Bytes
  | _, [] => []
  | written, .sink call :: calls => writtenAt (written ++ call.data) calls
  | written, .currentHash :: calls => written :: writtenAt written calls

/-- `hashString` and the length: what depends on the bytes alone. -/
def resultOf (lib : Contexts) (ha : HashAlgorithm) (written : Bytes) : HashResult where
  hash := lib.hashString ha written
  numBytesDigested := UInt64.ofNat written.length

/-- The state after pieces were passed on. -/
theorem passAll_writeUnbuffered (pieces : List Bytes) (s : HashState lib) :
    passAll (writeUnbuffered lib ha) pieces s =
      { ctx := passAll (lib.update ha) pieces s.ctx
        bytes := s.bytes + UInt64.ofNat pieces.flatten.length } := by
  induction pieces generalizing s with
  | nil => simp [passAll]
  | cons piece pieces ih =>
      show passAll (writeUnbuffered lib ha) pieces (writeUnbuffered lib ha piece s) = _
      rw [ih, List.flatten_cons, List.length_append, UInt64.ofNat_add, ← UInt64.add_assoc]
      rfl

/-- A sink that has taken what was written. -/
def Took (ha : HashAlgorithm) (written : Bytes) (sink : HashSink lib) : Prop :=
  ∃ memory, Accepts (writeUnbuffered lib ha) written (new lib ha memory) sink

theorem Took.step {written data : Bytes} {sink sink' : HashSink lib} (h : Took ha written sink)
    (hstep : Accepts (writeUnbuffered lib ha) data sink sink') :
    Took ha (written ++ data) sink' := by
  obtain ⟨memory, haccepts⟩ := h
  exact ⟨memory, haccepts.trans hstep⟩

theorem Took.flush {written : Bytes} {sink : HashSink lib} (h : Took ha written sink) :
    Took ha written (sink.flush (writeUnbuffered lib ha)) := by
  have hflushed := h.step (sink.flush_spec).1
  rwa [List.append_nil] at hflushed

/-- Finishing hashes what was written, and counts it. -/
theorem Took.finish {written : Bytes} {sink : HashSink lib} (hlib : lib.Incremental)
    (h : Took ha written sink) : sink.finish ha = resultOf lib ha written := by
  obtain ⟨memory, haccepts⟩ := h.flush
  obtain ⟨pieces, hout, hpieces⟩ := haccepts.passed rfl (sink.flush_spec).2
  have hctx : lib.finish ha (sink.flush (writeUnbuffered lib ha)).out.ctx =
      lib.finish ha (lib.update ha written (lib.start ha)) := by
    rw [hout, passAll_writeUnbuffered, ← hpieces]
    exact hlib ha pieces
  have hbytes : (sink.flush (writeUnbuffered lib ha)).out.bytes =
      UInt64.ofNat written.length := by
    rw [hout, passAll_writeUnbuffered, ← hpieces]
    exact UInt64.zero_add _
  simp only [HashSink.finish, resultOf, Contexts.hashString, Contexts.hashOf, hctx, hbytes]

theorem Took.currentHash {written : Bytes} {sink : HashSink lib} (hlib : lib.Incremental)
    (h : Took ha written sink) :
    (sink.currentHash ha).1 = resultOf lib ha written ∧ Took ha written (sink.currentHash ha).2 :=
  ⟨h.finish hlib, h.flush⟩

/-- Calls of every kind: each `currentHash` returns the result of what was
    written before it, and the sink has taken everything. -/
theorem run_spec {written : Bytes} {sink : HashSink lib} (hlib : lib.Incremental)
    (calls : List Call) (h : Took ha written sink) :
    (run ha calls sink).1 = (writtenAt written calls).map (resultOf lib ha) ∧
      Took ha (written ++ calls.flatMap Call.data) (run ha calls sink).2 := by
  induction calls generalizing written sink with
  | nil => exact ⟨rfl, by rwa [List.flatMap_nil, List.append_nil]⟩
  | cons call calls ih =>
      rw [List.flatMap_cons, ← List.append_assoc]
      cases call with
      | sink call =>
          have htook := h.step (SinkCall.run_spec [call] sink)
          rw [List.flatMap_singleton] at htook
          exact ih htook
      | currentHash =>
          obtain ⟨hresult, htook⟩ := h.currentHash hlib
          obtain ⟨hresults, hrun⟩ := ih htook
          refine ⟨?_, ?_⟩
          · rw [run, writtenAt, List.map_cons, ← hresult, ← hresults]
          · rw [Call.data, List.append_nil]
            exact hrun

end HashSink

-- ============================================================================
-- Transparency
-- ============================================================================

/-- A sink with nothing in its buffer, whose `writeUnbuffered` keeps what it is
    given. -/
def BufferedSink.recording (memory : {m : Bytes // m.length = bufSize}) :
    BufferedSink bufSize (List Bytes) where
  buffer := memory.val
  bufPos := 0
  out := []
  length_buffer := memory.property
  bufPos_le := Nat.zero_le _

/-- `writeUnbuffered` of such a sink. -/
def record (data : Bytes) (pieces : List Bytes) : List Bytes := pieces ++ [data]

theorem passAll_record (pieces before : List Bytes) :
    passAll record pieces before = before ++ pieces := by
  induction pieces generalizing before with
  | nil => exact (List.append_nil before).symm
  | cons piece pieces ih =>
      show passAll record pieces (record piece before) = _
      rw [ih, record, List.append_assoc, List.singleton_append]

/-- After a final flush, what was passed on is what was written. -/
theorem BufferedSink.flushed_eq (memory : {m : Bytes // m.length = bufSize})
    (calls : List SinkCall) :
    ((SinkCall.run record calls (recording memory)).flush record).out.flatten =
      calls.flatMap SinkCall.data := by
  have hrun := @SinkCall.run_spec _ _ record calls (recording memory)
  have hflushed := hrun.trans ((SinkCall.run record calls (recording memory)).flush_spec).1
  rw [List.append_nil] at hflushed
  obtain ⟨pieces, hout, hpieces⟩ :=
    hflushed.passed rfl ((SinkCall.run record calls (recording memory)).flush_spec).2
  rw [hout, passAll_record, ← hpieces]
  rfl

/-- Buffering changes nothing: what is passed on, and the digests and counts
    of a `HashSink`, are those of the bytes written, however they are cut and
    whenever `flush` and `currentHash` are called. -/
theorem HashSink.buffering_transparent :
    (∀ (bufSize : Nat) (memory : {m : Bytes // m.length = bufSize}) (calls : List SinkCall),
      ((SinkCall.run record calls (BufferedSink.recording memory)).flush record).out.flatten =
          calls.flatMap SinkCall.data ∧
        (SinkCall.run record calls (BufferedSink.recording memory)).bufPos ≤ bufSize) ∧
    ∀ (lib : Contexts), lib.Incremental → ∀ ha memory (calls : List Call),
      (run ha calls (new lib ha memory)).1 = (writtenAt [] calls).map (resultOf lib ha) ∧
        (run ha calls (new lib ha memory)).2.finish ha =
          resultOf lib ha (calls.flatMap Call.data) := by
  refine ⟨fun bufSize memory calls => ⟨BufferedSink.flushed_eq memory calls,
    BufferedSink.bufPos_le _⟩, fun lib hlib ha memory calls => ?_⟩
  have hnew : Took ha [] (new lib ha memory) := ⟨memory, Accepts.refl _⟩
  obtain ⟨hresults, htook⟩ := run_spec hlib calls hnew
  exact ⟨hresults, htook.finish hlib⟩

namespace Sample

/-- SHA-256 of "a". -/
def sha256A : Hash where
  algo := .sha256
  bytes := [202, 151, 129, 18, 202, 27, 189, 202, 250, 194, 49, 179, 154, 35, 220, 77,
    167, 134, 239, 248, 20, 124, 78, 114, 185, 128, 119, 133, 175, 238, 72, 187]
  size_eq := rfl

/-- SHA-256 of "abc". -/
def sha256Abc : Hash where
  algo := .sha256
  bytes := [186, 120, 22, 191, 143, 1, 207, 234, 65, 65, 64, 222, 93, 174, 34, 35,
    176, 3, 97, 163, 150, 23, 122, 156, 180, 16, 255, 97, 242, 0, 21, 173]
  size_eq := rfl

/-- Contexts that keep the message, and know the hashes of two. -/
def lib : Contexts where
  Ctx := Bytes
  start _ := []
  update _ data ctx := ctx ++ data
  finish
    | .sha256, ctx =>
        if ctx = ascii "a" then ⟨sha256A.bytes, rfl⟩
        else if ctx = ascii "abc" then ⟨sha256Abc.bytes, rfl⟩
        else ⟨List.replicate 32 0, rfl⟩
    | ha, _ => ⟨List.replicate (regularHashSize ha) 0, List.length_replicate⟩

theorem passAll_update (ha : HashAlgorithm) (pieces : List Bytes) (ctx : Bytes) :
    passAll (lib.update ha) pieces ctx = ctx ++ pieces.flatten := by
  induction pieces generalizing ctx with
  | nil => exact (List.append_nil ctx).symm
  | cons piece pieces ih =>
      show passAll (lib.update ha) pieces (ctx ++ piece) = _
      rw [ih, List.flatten_cons, List.append_assoc]

theorem lib_incremental : lib.Incremental := fun ha pieces =>
  congrArg (lib.finish ha) (passAll_update ha pieces [])

def memory : {m : Bytes // m.length = 32 * 1024} :=
  ⟨List.replicate (32 * 1024) 0, List.length_replicate⟩

def calls : List HashSink.Call :=
  [.sink (.write (ascii "a")), .currentHash, .sink (.write (ascii "bc")), .sink .flush]

end Sample

/-- "abc" in two writes, with a `currentHash` between them. -/
theorem HashSink.buffering_transparent_abc :
    (run .sha256 Sample.calls (new Sample.lib .sha256 Sample.memory)).1 =
        [{ hash := Sample.sha256A, numBytesDigested := 1 }] ∧
      (run .sha256 Sample.calls (new Sample.lib .sha256 Sample.memory)).2.finish .sha256 =
        { hash := Sample.sha256Abc, numBytesDigested := 3 } := by
  obtain ⟨hresults, hfinish⟩ := buffering_transparent.2 Sample.lib Sample.lib_incremental
    .sha256 Sample.memory Sample.calls
  rw [hresults, hfinish]
  decide

end Buffering
end NixStore
