/-
  NixStore.Util.FdSource

  `FdSource` of `libutil/serialise.{hh,cc}`: a buffered source over a file
  descriptor, whose `skip` seeks over what is not in the buffer where the
  descriptor can be seeked.

  What a source has still to deliver lies in two places, the unread part of
  the buffer and the file behind its offset (`remaining`).  Reading and
  discarding is reduced to dropping one byte at a time (`skip_eq_drops`); a
  seek is then compared with the drops it stands for.
-/

import NixStore.Util.Serialise
import NixStore.Lib.Effect

namespace NixStore

open Wire Effect

/-- `std::numeric_limits<off_t>::max()`. -/
def offMax : Nat := 2 ^ 63 - 1

/-- The file a descriptor is open on.  Of a file that cannot be seeked
    `ready offset len` bytes are there when `len` are asked for, at least one
    and no more than there are. -/
inductive OpenFile where
  | regular (contents : Bytes) (size_le : contents.length ≤ offMax)
  | stream (contents : Bytes) (ready : Nat → Nat → Nat)

namespace OpenFile

def contents : OpenFile → Bytes
  | regular contents _ => contents
  | stream contents _ => contents

/-- How many bytes a read of `len` bytes at an offset gives. -/
def transfer : OpenFile → Nat → Nat → Nat
  | regular contents _, offset, len => min len (contents.length - offset)
  | stream contents ready, offset, len =>
      min (min len (contents.length - offset)) (max 1 (ready offset len))

/-- `read(2)`. -/
def readAt (f : OpenFile) (offset len : Nat) : Bytes :=
  (f.contents.drop offset).take (f.transfer offset len)

theorem transfer_le (f : OpenFile) (offset len : Nat) :
    f.transfer offset len ≤ min len (f.contents.length - offset) := by
  cases f with
  | regular contents _ => exact Nat.le_refl _
  | stream contents ready => exact Nat.min_le_left _ _

theorem length_readAt (f : OpenFile) (offset len : Nat) :
    (f.readAt offset len).length = f.transfer offset len := by
  have hle := f.transfer_le offset len
  rw [readAt, List.length_take, List.length_drop]
  omega

theorem transfer_pos (f : OpenFile) {offset : Nat} (len : Nat) (hlen : 0 < len)
    (hoffset : offset < f.contents.length) : 0 < f.transfer offset len := by
  cases f with
  | regular contents _ =>
      have hin : offset < contents.length := hoffset
      show 0 < min len (contents.length - offset)
      omega
  | stream contents ready =>
      have hin : offset < contents.length := hoffset
      show 0 < min (min len (contents.length - offset)) (max 1 (ready offset len))
      omega

/-- What is read is the front of what is left of the file. -/
theorem readAt_append (f : OpenFile) (offset len : Nat) :
    f.readAt offset len ++ f.contents.drop (offset + (f.readAt offset len).length)
      = f.contents.drop offset := by
  rw [length_readAt, readAt, ← List.drop_drop]
  exact List.take_append_drop _ _

end OpenFile

/-- `FdSource`, with the file and the offset that the kernel keeps for its
    descriptor.  What the buffer holds behind `bufPosIn` is never looked at. -/
structure FdSource where
  file : OpenFile
  offset : Nat
  buffer : Bytes
  bufPosIn : Nat
  bufPosOut : Nat
  read : Nat
  isSeekable : Bool
  good : Bool

namespace FdSource

/-- `BufferedSource::bufSize`. -/
def bufSize : Nat := 32 * 1024

/-- `FdSource(Descriptor)`. -/
def ofDescriptor (file : OpenFile) (offset : Nat) : FdSource where
  file := file
  offset := offset
  buffer := []
  bufPosIn := 0
  bufPosOut := 0
  read := 0
  isSeekable := true
  good := true

/-- `FdSource::readUnbuffered`. -/
def readUnbuffered (len : Nat) : EStateM Error FdSource Bytes := fun s =>
  let data := s.file.readAt s.offset len
  if data.length = 0 then .error .endOfFile { s with good := false }
  else .ok data { s with offset := s.offset + data.length, read := s.read + data.length }

/-- The refill in `BufferedSource::read`. -/
def fill : EStateM Error FdSource Unit := fun s =>
  if s.bufPosIn = 0 then
    match readUnbuffered bufSize s with
    | .error e s => .error e s
    | .ok data s => .ok () { s with buffer := data, bufPosIn := data.length }
  else .ok () s

/-- The copy in `BufferedSource::read`. -/
def copyOut (len : Nat) : EStateM Error FdSource Bytes := fun s =>
  let n := min len (s.bufPosIn - s.bufPosOut)
  let data := (s.buffer.drop s.bufPosOut).take n
  if s.bufPosIn = s.bufPosOut + n then .ok data { s with bufPosIn := 0, bufPosOut := 0 }
  else .ok data { s with bufPosOut := s.bufPosOut + n }

/-- `BufferedSource::read`. -/
def bufferedRead (len : Nat) : EStateM Error FdSource Bytes := do
  fill
  copyOut len

/-- The loop of `Source::skip`.  A read never returns without a byte, so there
    are no more turns than bytes. -/
def skipLoop : Nat → Nat → EStateM Error FdSource Unit
  | 0, _ => pure ()
  | turns + 1, len =>
      if len = 0 then pure ()
      else do
        let data ← bufferedRead (min len 8192)
        skipLoop turns (len - data.length)

/-- `Source::skip`, which `BufferedSource` inherits: read and discard. -/
def readAndDiscard (len : Nat) : EStateM Error FdSource Unit := skipLoop len len

/-- The first part of `FdSource::skip`: discard data in the buffer.  Returns
    what is left to skip. -/
def discardBuffered (len : Nat) : EStateM Error FdSource Nat := fun s =>
  let buffered := s.bufPosIn - s.bufPosOut
  if len ≠ 0 ∧ buffered ≠ 0 then
    if len ≥ buffered then .ok (len - buffered) { s with bufPosIn := 0, bufPosOut := 0 }
    else .ok 0 { s with bufPosOut := s.bufPosOut + len }
  else .ok len s

/-- Why `lseek` fails. -/
inductive SeekError where
  | espipe
  | eoverflow

/-- `lseek(fd, len, SEEK_CUR)`.  An offset behind the end of the file is no
    error. -/
def lseek (s : FdSource) (len : Nat) : Except SeekError Nat :=
  match s.file with
  | .stream _ _ => .error .espipe
  | .regular _ _ => if s.offset + len > offMax then .error .eoverflow else .ok (s.offset + len)

/-- The rest of `FdSource::skip`: seek forward if that is possible, otherwise
    skip by reading. -/
def skipForward (len : Nat) : EStateM Error FdSource Unit := fun s =>
  if s.isSeekable ∧ len ≠ 0 then
    if len > offMax then
      .error (.error s!"cannot skip {len} bytes: exceeds maximum file offset") s
    else
      match s.lseek len with
      | .ok offset => .ok () { s with offset := offset, read := s.read + len }
      | .error .eoverflow => .error (.error "seeking forward in file") s
      | .error .espipe => readAndDiscard len { s with isSeekable := false }
  else readAndDiscard len s

/-- `FdSource::skip`. -/
def skip (len : Nat) : EStateM Error FdSource Unit := do
  let len ← discardBuffered len
  skipForward len

-- ============================================================================
-- Section 1: The buffer and the file
-- ============================================================================

/-- The number of bytes in the buffer that have not been delivered. -/
def buffered (s : FdSource) : Nat := s.bufPosIn - s.bufPosOut

/-- What the source has still to deliver. -/
def remaining (s : FdSource) : Bytes :=
  (s.buffer.take s.bufPosIn).drop s.bufPosOut ++ s.file.contents.drop s.offset

/-- The positions of the buffer: they lie within it, and a buffer that has been
    delivered is marked as empty. -/
structure Positioned (s : FdSource) : Prop where
  in_le : s.bufPosIn ≤ s.buffer.length
  out_lt : s.bufPosOut < s.bufPosIn ∨ s.bufPosIn = 0 ∧ s.bufPosOut = 0

/-- `k` bytes of the buffer have been delivered. -/
def advance (k : Nat) (s : FdSource) : FdSource :=
  if s.bufPosIn = s.bufPosOut + k then { s with bufPosIn := 0, bufPosOut := 0 }
  else { s with bufPosOut := s.bufPosOut + k }

theorem advance_zero {s : FdSource} (h : s.Positioned) : advance 0 s = s := by
  unfold advance
  rcases h.out_lt with hlt | ⟨hin, hout⟩
  · exact if_neg (by omega)
  · rw [if_pos (by omega)]
    cases s
    cases hin
    cases hout
    rfl

theorem advance_positioned {s : FdSource} (h : s.Positioned) {k : Nat} (hk : k ≤ s.buffered) :
    (advance k s).Positioned := by
  unfold buffered at hk
  have hin := h.in_le
  have hout := h.out_lt
  unfold advance
  by_cases heq : s.bufPosIn = s.bufPosOut + k
  · rw [if_pos heq]
    exact ⟨Nat.zero_le _, Or.inr ⟨rfl, rfl⟩⟩
  · rw [if_neg heq]
    refine ⟨hin, ?_⟩
    show s.bufPosOut + k < s.bufPosIn ∨ s.bufPosIn = 0 ∧ s.bufPosOut + k = 0
    omega

theorem advance_buffered (k : Nat) (s : FdSource) :
    (advance k s).buffered = s.buffered - k := by
  unfold buffered advance
  by_cases heq : s.bufPosIn = s.bufPosOut + k
  · rw [if_pos heq]
    show 0 - 0 = s.bufPosIn - s.bufPosOut - k
    omega
  · rw [if_neg heq]
    show s.bufPosIn - (s.bufPosOut + k) = s.bufPosIn - s.bufPosOut - k
    omega

theorem advance_advance {s : FdSource} {j k : Nat} (_ : 0 < k) (h : j + k ≤ s.buffered) :
    advance k (advance j s) = advance (j + k) s := by
  unfold buffered at h
  have hne : s.bufPosIn ≠ s.bufPosOut + j := by omega
  have hstep : advance j s = { s with bufPosOut := s.bufPosOut + j } := if_neg hne
  rw [hstep]
  unfold advance
  simp only [Nat.add_assoc]

/-- Delivering bytes of the buffer takes them off the front. -/
theorem advance_remaining {s : FdSource} (h : s.Positioned) {k : Nat} (hk : k ≤ s.buffered) :
    (advance k s).remaining = s.remaining.drop k := by
  have hin := h.in_le
  unfold buffered at hk
  have hlen : k ≤ ((s.buffer.take s.bufPosIn).drop s.bufPosOut).length := by
    rw [List.length_drop, List.length_take]
    omega
  rw [remaining, remaining, List.drop_append_of_le_length hlen, List.drop_drop]
  unfold advance
  by_cases heq : s.bufPosIn = s.bufPosOut + k
  · rw [if_pos heq]
    have hall : (s.buffer.take s.bufPosIn).drop (s.bufPosOut + k) = [] := by
      apply List.drop_eq_nil_of_le
      rw [List.length_take]
      omega
    rw [hall]
    rfl
  · rw [if_neg heq]

theorem copyOut_eq (len : Nat) (s : FdSource) :
    copyOut len s = .ok ((s.buffer.drop s.bufPosOut).take (min len s.buffered))
      (advance (min len s.buffered) s) := by
  unfold copyOut advance buffered
  dsimp only
  split
  · rfl
  · rfl

/-- A source whose buffer was refilled. -/
def filled (s : FdSource) : FdSource :=
  let data := s.file.readAt s.offset bufSize
  { s with
    offset := s.offset + data.length
    read := s.read + data.length
    buffer := data
    bufPosIn := data.length }

theorem fill_of_buffered {s : FdSource} (h : s.bufPosIn ≠ 0) : fill s = .ok () s := if_neg h

theorem fill_of_empty {s : FdSource} (h : s.bufPosIn = 0)
    (hmore : s.offset < s.file.contents.length) : fill s = .ok () s.filled := by
  have hpos : (s.file.readAt s.offset bufSize).length ≠ 0 := by
    rw [OpenFile.length_readAt]
    exact Nat.ne_of_gt (s.file.transfer_pos bufSize (by decide) hmore)
  unfold fill readUnbuffered filled
  dsimp only
  rw [if_pos h, if_neg hpos]

theorem fill_at_end {s : FdSource} (h : s.bufPosIn = 0)
    (hend : s.file.contents.length ≤ s.offset) :
    fill s = .error .endOfFile { s with good := false } := by
  have hnone : (s.file.readAt s.offset bufSize).length = 0 := by
    have hle := s.file.transfer_le s.offset bufSize
    rw [OpenFile.length_readAt]
    omega
  unfold fill readUnbuffered
  dsimp only
  rw [if_pos h, if_pos hnone]

theorem filled_positioned {s : FdSource} (hout : s.bufPosOut = 0)
    (hmore : s.offset < s.file.contents.length) : s.filled.Positioned := by
  refine ⟨Nat.le_refl _, Or.inl ?_⟩
  have hpos := s.file.transfer_pos bufSize (by decide) hmore
  show s.bufPosOut < (s.file.readAt s.offset bufSize).length
  rw [hout, OpenFile.length_readAt]
  exact hpos

theorem filled_remaining {s : FdSource} (hin : s.bufPosIn = 0) (hout : s.bufPosOut = 0) :
    s.filled.remaining = s.remaining := by
  have hempty : s.remaining = s.file.contents.drop s.offset := by
    rw [remaining, hin, hout]
    rfl
  rw [hempty, ← s.file.readAt_append s.offset bufSize, remaining]
  show ((s.file.readAt s.offset bufSize).take (s.file.readAt s.offset bufSize).length).drop
    s.bufPosOut ++ _ = _
  rw [hout, List.take_length, List.drop_zero]
  rfl

-- ============================================================================
-- Section 2: Reading and discarding, byte by byte
-- ============================================================================

/-- Deliver `n` bytes, one at a time. -/
def drops : Nat → EStateM Error FdSource Unit
  | 0 => pure ()
  | n + 1 => do
      let _ ← bufferedRead 1
      drops n

theorem drops_add (a b : Nat) (s : FdSource) :
    drops (a + b) s = (drops a >>= fun _ => drops b) s := by
  induction a generalizing s with
  | zero =>
      rw [Nat.zero_add]
      rfl
  | succ a ih =>
      rw [Nat.add_right_comm, drops, drops, bind_run, bind_run, bind_run]
      cases bufferedRead 1 s with
      | error e s' => rfl
      | ok d s' =>
          dsimp only
          rw [ih s', bind_run]

theorem drops_add_of_ok {a b : Nat} {s s' : FdSource} (h : drops a s = .ok () s') :
    drops (a + b) s = drops b s' := by
  rw [drops_add, bind_of_ok h]

/-- A buffer that is not empty is read without a look at the file. -/
theorem bufferedRead_of_buffered {s : FdSource} (h : 0 < s.buffered) (len : Nat) : bufferedRead len s = copyOut len s := by
  unfold buffered at h
  have hne : s.bufPosIn ≠ 0 := by omega
  rw [bufferedRead, bind_of_ok (fill_of_buffered hne)]

/-- Within the buffer only the positions move. -/
theorem drops_within {s : FdSource} (hs : s.Positioned) {k : Nat} (hk : k ≤ s.buffered) :
    drops k s = .ok () (advance k s) := by
  induction k with
  | zero =>
      rw [advance_zero hs]
      rfl
  | succ k ih =>
      have hlt : k < s.buffered := by omega
      have hbuf : 0 < (advance k s).buffered := by
        rw [advance_buffered]
        omega
      have hone : min 1 (advance k s).buffered = 1 := by omega
      rw [drops_add_of_ok (ih (Nat.le_of_lt hlt)), drops, bind_run,
        bufferedRead_of_buffered hbuf, copyOut_eq, hone]
      dsimp only
      rw [advance_advance Nat.one_pos hk]
      rfl

/-- An empty buffer is refilled before the first byte is taken. -/
theorem drops_filled {s : FdSource} (hin : s.bufPosIn = 0) (hout : s.bufPosOut = 0)
    (hmore : s.offset < s.file.contents.length) (k : Nat) :
    drops (k + 1) s = drops (k + 1) s.filled := by
  have hfilled := filled_positioned hout hmore
  have hne : s.filled.bufPosIn ≠ 0 := by
    rcases hfilled.out_lt with hlt | ⟨hzero, -⟩
    · omega
    · have hpos := s.file.transfer_pos bufSize (by decide) hmore
      rw [← OpenFile.length_readAt] at hpos
      exact absurd hzero (Nat.ne_of_gt hpos)
  have hread : bufferedRead 1 s = bufferedRead 1 s.filled := by
    rw [bufferedRead, bind_of_ok (fill_of_empty hin hmore), bind_of_ok (fill_of_buffered hne)]
  rw [drops, bind_run, bind_run, hread]

theorem buffered_filled {s : FdSource} (hout : s.bufPosOut = 0) :
    s.filled.buffered = s.file.transfer s.offset bufSize := by
  rw [← OpenFile.length_readAt]
  show (s.file.readAt s.offset bufSize).length - s.bufPosOut = _
  rw [hout, Nat.sub_zero]

/-- What one read does: it delivers bytes as so many drops would, or throws at
    the end of the file. -/
theorem bufferedRead_spec {s : FdSource} (hs : s.Positioned) (len : Nat) (hlen : 0 < len) :
    (s.remaining = [] ∧ bufferedRead len s = .error .endOfFile { s with good := false }) ∨
    ∃ data s', bufferedRead len s = .ok data s' ∧ 0 < data.length ∧ data.length ≤ len ∧
      drops data.length s = .ok () s' ∧ s'.Positioned ∧
      s'.remaining = s.remaining.drop data.length ∧ data.length ≤ s.remaining.length := by
  have hcopy : ∀ t : FdSource, t.Positioned → 0 < t.buffered → t.remaining = s.remaining →
      (∀ k, drops (k + 1) s = drops (k + 1) t) → bufferedRead len s = copyOut len t →
      ∃ data s', bufferedRead len s = .ok data s' ∧ 0 < data.length ∧ data.length ≤ len ∧
        drops data.length s = .ok () s' ∧ s'.Positioned ∧
        s'.remaining = s.remaining.drop data.length ∧ data.length ≤ s.remaining.length := by
    intro t ht hbuf hrem hdrops hread
    have hin := ht.in_le
    obtain ⟨n, hn⟩ : ∃ n, n = min len t.buffered := ⟨_, rfl⟩
    have hdata : ((t.buffer.drop t.bufPosOut).take n).length = n := by
      unfold buffered at hn hbuf
      rw [List.length_take, List.length_drop]
      omega
    have hle : n ≤ t.buffered := by omega
    have hsize : n ≤ t.remaining.length := by
      unfold buffered at hn hbuf
      rw [remaining, List.length_append, List.length_drop, List.length_take]
      omega
    refine ⟨_, _, by rw [hread, copyOut_eq, ← hn], ?_⟩
    rw [hdata]
    obtain ⟨k, hk⟩ : ∃ k, n = k + 1 := ⟨n - 1, by omega⟩
    refine ⟨by omega, by omega, ?_, advance_positioned ht hle, ?_, by rw [← hrem]; exact hsize⟩
    · rw [hk, hdrops, ← hk]
      exact drops_within ht hle
    · rw [advance_remaining ht hle, hrem]
  by_cases hempty : s.bufPosIn = 0
  · have hout : s.bufPosOut = 0 := by
      have := hs.out_lt
      omega
    by_cases hmore : s.offset < s.file.contents.length
    · refine Or.inr (hcopy s.filled (filled_positioned hout hmore) ?_ (filled_remaining hempty hout)
        (drops_filled hempty hout hmore) ?_)
      · rw [buffered_filled hout]
        exact s.file.transfer_pos bufSize (by decide) hmore
      · rw [bufferedRead, bind_of_ok (fill_of_empty hempty hmore)]
    · left
      refine ⟨?_, ?_⟩
      · rw [remaining, hempty, List.drop_eq_nil_of_le (Nat.le_of_not_lt hmore)]
        simp
      · rw [bufferedRead, bind_of_error (fill_at_end hempty (Nat.le_of_not_lt hmore))]
  · have hbuf : 0 < s.buffered := by
      have := hs.out_lt
      unfold buffered
      omega
    exact Or.inr (hcopy s hs hbuf rfl (fun _ => rfl) (bufferedRead_of_buffered hbuf len))

theorem skipLoop_eq_drops {turns len : Nat} (hturns : len ≤ turns) {s : FdSource}
    (hs : s.Positioned) : skipLoop turns len s = drops len s := by
  induction turns generalizing len s with
  | zero =>
      rw [Nat.le_zero.mp hturns]
      rfl
  | succ turns ih =>
      rw [skipLoop]
      by_cases hzero : len = 0
      · rw [if_pos hzero, hzero]
        rfl
      · rw [if_neg hzero, bind_run]
        rcases bufferedRead_spec hs (min len 8192) (by omega) with
          ⟨hend, hread⟩ | ⟨data, s', hread, hpos, hle, hdrops, hs', -, -⟩
        · -- at the end of the file the first drop throws as well
          obtain ⟨k, rfl⟩ : ∃ k, len = k + 1 := ⟨len - 1, by omega⟩
          have hone : bufferedRead 1 s = .error .endOfFile { s with good := false } := by
            rcases bufferedRead_spec hs 1 Nat.one_pos with
              ⟨-, hone⟩ | ⟨data, s', -, hpos, -, -, -, -, hle⟩
            · exact hone
            · rw [hend, List.length_nil] at hle
              omega
          rw [hread, drops, bind_of_error hone]
        · rw [hread]
          dsimp only
          rw [ih (by omega) hs']
          have hsum : len = data.length + (len - data.length) := by omega
          conv_rhs => rw [hsum]
          exact (drops_add_of_ok hdrops).symm

theorem readAndDiscard_eq_drops {s : FdSource} (hs : s.Positioned) (len : Nat) :
    readAndDiscard len s = drops len s := skipLoop_eq_drops (Nat.le_refl _) hs

/-- The drops succeed exactly when that many bytes remain. -/
theorem drops_spec {s : FdSource} (hs : s.Positioned) (n : Nat) :
    (n ≤ s.remaining.length ∧ ∃ s', drops n s = .ok () s' ∧ s'.Positioned ∧
      s'.remaining = s.remaining.drop n) ∨
    (s.remaining.length < n ∧ ∃ s', drops n s = .error .endOfFile s' ∧ s'.Positioned) := by
  induction n generalizing s with
  | zero => exact Or.inl ⟨Nat.zero_le _, s, rfl, hs, rfl⟩
  | succ n ih =>
      rcases bufferedRead_spec hs 1 Nat.one_pos with
        ⟨hend, hread⟩ | ⟨data, s', hread, hpos, hle, -, hs', hrem, hsize⟩
      · right
        refine ⟨by rw [hend]; exact Nat.succ_pos n, _, by rw [drops, bind_of_error hread], ?_⟩
        exact ⟨hs.in_le, hs.out_lt⟩
      · have hone : data.length = 1 := by omega
        rw [hone] at hrem hsize
        have hlen : s'.remaining.length = s.remaining.length - 1 := by
          rw [hrem, List.length_drop]
        have hstep : drops (n + 1) s = drops n s' := by
          rw [drops, bind_of_ok hread]
        rw [hstep]
        rcases ih hs' with ⟨hn, s'', hdrops, hs'', hrem'⟩ | ⟨hn, s'', hdrops, hs''⟩
        · left
          refine ⟨by omega, s'', hdrops, hs'', ?_⟩
          rw [hrem', hrem, List.drop_drop, Nat.add_comm]
        · exact Or.inr ⟨by omega, s'', hdrops, hs''⟩

-- ============================================================================
-- Section 3: What later calls see
-- ============================================================================

/-- The calls that move a source forward. -/
inductive Call where
  | read (len : Nat)
  | skip (len : Nat)

def Call.run : Call → EStateM Error FdSource Bytes
  | read len => bufferedRead len
  | skip len => do
      FdSource.skip len
      pure []

/-- What calls made one after another return or throw, and the `read` counter
    behind each of them. -/
def observe : List Call → FdSource → List (Except Error Bytes × Nat)
  | [], _ => []
  | c :: calls, s =>
      (result c.run s, (final c.run s).read) :: observe calls (final c.run s)

/-- The source that calls made one after another leave. -/
def after : List Call → FdSource → FdSource
  | [], s => s
  | c :: calls, s => after calls (final c.run s)

/-- `skip(len)` does what reading and discarding `len` bytes does: it throws
    `EndOfFile` if fewer remain, and otherwise no later call can tell. -/
structure AgreesWithReading (s : FdSource) (len : Nat) : Prop where
  throws_iff : (∃ s', skip len s = .error .endOfFile s') ↔ s.remaining.length < len
  same_after : len ≤ s.remaining.length → ∃ s' t,
    skip len s = .ok () s' ∧ readAndDiscard len s = .ok () t ∧ s'.read = t.read ∧
      ∀ calls, observe calls s' = observe calls t

/-- Two sources that differ in nothing but what an empty buffer holds. -/
def Same (s t : FdSource) : Prop :=
  s = t ∨ s.bufPosIn = 0 ∧ s.bufPosOut = 0 ∧ t = { s with buffer := t.buffer }

/-- Two runs with the same outcome. -/
def Alike {α : Type} : EStateM.Result Error FdSource α → EStateM.Result Error FdSource α → Prop
  | .ok a s, .ok b t => a = b ∧ Same s t
  | .error e s, .error f t => e = f ∧ Same s t
  | _, _ => False

theorem alike_refl {α : Type} (r : EStateM.Result Error FdSource α) : Alike r r := by
  cases r with
  | ok a s => exact ⟨rfl, Or.inl rfl⟩
  | error e s => exact ⟨rfl, Or.inl rfl⟩

theorem alike_bind {α β : Type} {x : EStateM Error FdSource α}
    {f : α → EStateM Error FdSource β} {s t : FdSource} (hx : Alike (x s) (x t))
    (hf : ∀ a s t, Same s t → Alike (f a s) (f a t)) : Alike ((x >>= f) s) ((x >>= f) t) := by
  rw [bind_run, bind_run]
  cases hs : x s with
  | ok a s' =>
      cases ht : x t with
      | ok b t' =>
          rw [hs, ht] at hx
          obtain ⟨rfl, hsame⟩ := hx
          exact hf a s' t' hsame
      | error e t' =>
          rw [hs, ht] at hx
          exact hx.elim
  | error e s' =>
      cases ht : x t with
      | ok b t' =>
          rw [hs, ht] at hx
          exact hx.elim
      | error f t' =>
          rw [hs, ht] at hx
          exact hx

theorem fill_alike {s t : FdSource} (h : Same s t) : Alike (fill s) (fill t) := by
  rcases h with rfl | ⟨hin, hout, ht⟩
  · exact alike_refl _
  · have hin' : t.bufPosIn = 0 := by rw [ht]; exact hin
    have hfile : t.file = s.file := by rw [ht]
    have hoffset : t.offset = s.offset := by rw [ht]
    by_cases hmore : s.offset < s.file.contents.length
    · have hfilled : s.filled = t.filled := by rw [ht]; rfl
      rw [fill_of_empty hin hmore, fill_of_empty hin' (by rw [hfile, hoffset]; exact hmore)]
      exact ⟨rfl, Or.inl hfilled⟩
    · have hend := Nat.le_of_not_lt hmore
      rw [fill_at_end hin hend, fill_at_end hin' (by rw [hfile, hoffset]; exact hend)]
      exact ⟨rfl, Or.inr ⟨hin, hout, by rw [ht]⟩⟩

theorem copyOut_empty {s : FdSource} (hin : s.bufPosIn = 0) (hout : s.bufPosOut = 0) (len : Nat) :
    copyOut len s = .ok [] s := by
  cases s
  cases hin
  cases hout
  simp [copyOut]

theorem copyOut_alike {s t : FdSource} (h : Same s t) (len : Nat) :
    Alike (copyOut len s) (copyOut len t) := by
  rcases h with rfl | ⟨hin, hout, ht⟩
  · exact alike_refl _
  · rw [copyOut_empty hin hout, copyOut_empty (by rw [ht]; exact hin) (by rw [ht]; exact hout)]
    exact ⟨rfl, Or.inr ⟨hin, hout, ht⟩⟩

theorem bufferedRead_alike {s t : FdSource} (h : Same s t) (len : Nat) :
    Alike (bufferedRead len s) (bufferedRead len t) :=
  alike_bind (fill_alike h) fun _ _ _ h => copyOut_alike h len

theorem skipLoop_alike (turns : Nat) {s t : FdSource} (h : Same s t) (len : Nat) :
    Alike (skipLoop turns len s) (skipLoop turns len t) := by
  induction turns generalizing len s t with
  | zero => exact ⟨rfl, h⟩
  | succ turns ih =>
      rw [skipLoop]
      by_cases hzero : len = 0
      · rw [if_pos hzero]
        exact ⟨rfl, h⟩
      · rw [if_neg hzero]
        exact alike_bind (bufferedRead_alike h _) fun data _ _ h => ih h _

theorem discardBuffered_alike {s t : FdSource} (h : Same s t) (len : Nat) :
    Alike (discardBuffered len s) (discardBuffered len t) := by
  rcases h with rfl | ⟨hin, hout, ht⟩
  · exact alike_refl _
  · have hnone : ¬ (len ≠ 0 ∧ s.bufPosIn - s.bufPosOut ≠ 0) := by omega
    rw [ht]
    unfold discardBuffered
    dsimp only
    rw [if_neg hnone, if_neg hnone]
    exact ⟨rfl, Or.inr ⟨hin, hout, rfl⟩⟩

theorem skipForward_alike {s t : FdSource} (h : Same s t) (len : Nat) :
    Alike (skipForward len s) (skipForward len t) := by
  rcases h with rfl | ⟨hin, hout, ht⟩
  · exact alike_refl _
  · have hseek : lseek { s with buffer := t.buffer } len = s.lseek len := rfl
    rw [ht]
    unfold skipForward
    dsimp only
    rw [hseek]
    by_cases hcan : s.isSeekable = true ∧ len ≠ 0
    · rw [if_pos hcan, if_pos hcan]
      by_cases hbig : len > offMax
      · rw [if_pos hbig, if_pos hbig]
        exact ⟨rfl, Or.inr ⟨hin, hout, rfl⟩⟩
      · rw [if_neg hbig, if_neg hbig]
        cases s.lseek len with
        | ok offset => exact ⟨rfl, Or.inr ⟨hin, hout, rfl⟩⟩
        | error e =>
            cases e with
            | eoverflow => exact ⟨rfl, Or.inr ⟨hin, hout, rfl⟩⟩
            | espipe =>
                have hsame : Same { s with isSeekable := false }
                    { s with buffer := t.buffer, isSeekable := false } :=
                  Or.inr ⟨hin, hout, rfl⟩
                exact skipLoop_alike _ hsame len
    · rw [if_neg hcan, if_neg hcan]
      have hsame : Same s { s with buffer := t.buffer } := Or.inr ⟨hin, hout, rfl⟩
      exact skipLoop_alike _ hsame len

theorem skip_alike {s t : FdSource} (h : Same s t) (len : Nat) :
    Alike (skip len s) (skip len t) :=
  alike_bind (discardBuffered_alike h len) fun rest _ _ h => skipForward_alike h rest

theorem call_alike {s t : FdSource} (h : Same s t) (c : Call) : Alike (c.run s) (c.run t) := by
  cases c with
  | read len => exact bufferedRead_alike h len
  | skip len => exact alike_bind (skip_alike h len) fun _ _ _ h => ⟨rfl, h⟩

theorem Same.read_eq {s t : FdSource} (h : Same s t) : s.read = t.read := by
  rcases h with rfl | ⟨-, -, ht⟩
  · rfl
  · rw [ht]

/-- No call can tell such sources apart. -/
theorem Same.observe_eq {s t : FdSource} (h : Same s t) (calls : List Call) :
    observe calls s = observe calls t := by
  induction calls generalizing s t with
  | nil => rfl
  | cons c calls ih =>
      have hrun := call_alike h c
      unfold observe result final
      cases hs : c.run s with
      | ok a s' =>
          cases ht : c.run t with
          | ok b t' =>
              rw [hs, ht] at hrun
              obtain ⟨rfl, hsame⟩ := hrun
              simp only [hsame.read_eq, ih hsame]
          | error e t' =>
              rw [hs, ht] at hrun
              exact hrun.elim
      | error e s' =>
          cases ht : c.run t with
          | ok b t' =>
              rw [hs, ht] at hrun
              exact hrun.elim
          | error f t' =>
              rw [hs, ht] at hrun
              obtain ⟨rfl, hsame⟩ := hrun
              simp only [hsame.read_eq, ih hsame]

-- ============================================================================
-- Section 4: A skip against the drops it stands for
-- ============================================================================

theorem fill_keeps : Keeps Positioned fill := by
  refine Spec.at_state fun s hs t ht => ?_
  subst ht
  by_cases hin : t.bufPosIn = 0
  · have hout : t.bufPosOut = 0 := by
      have := hs.out_lt
      omega
    by_cases hmore : t.offset < t.file.contents.length
    · rw [fill_of_empty hin hmore]
      exact filled_positioned hout hmore
    · rw [fill_at_end hin (Nat.le_of_not_lt hmore)]
      exact ⟨hs.in_le, hs.out_lt⟩
  · rw [fill_of_buffered hin]
    exact hs

theorem copyOut_keeps (len : Nat) : Keeps Positioned (copyOut len) := by
  refine Spec.at_state fun s hs t ht => ?_
  subst ht
  rw [copyOut_eq]
  exact advance_positioned hs (Nat.min_le_right _ _)

theorem bufferedRead_keeps (len : Nat) : Keeps Positioned (bufferedRead len) :=
  Keeps.seq fill_keeps fun _ => copyOut_keeps len

theorem skipLoop_keeps (turns len : Nat) : Keeps Positioned (skipLoop turns len) := by
  induction turns generalizing len with
  | zero => exact Keeps.ret ()
  | succ turns ih =>
      rw [skipLoop]
      exact Keeps.cond (Keeps.ret ()) (Keeps.seq (bufferedRead_keeps _) fun data => ih _)

/-- What `discardBuffered` does is to deliver what it can. -/
theorem discardBuffered_eq {s : FdSource} (hs : s.Positioned) (len : Nat) :
    discardBuffered len s
      = .ok (len - min len s.buffered) (advance (min len s.buffered) s) := by
  have hout := hs.out_lt
  unfold discardBuffered
  dsimp only
  by_cases hnone : len ≠ 0 ∧ s.bufPosIn - s.bufPosOut ≠ 0
  · rw [if_pos hnone]
    by_cases hall : len ≥ s.bufPosIn - s.bufPosOut
    · have hmin : min len s.buffered = s.bufPosIn - s.bufPosOut := Nat.min_eq_right hall
      rw [if_pos hall, hmin, advance, if_pos (by omega)]
    · have hmin : min len s.buffered = len := by
        unfold buffered
        omega
      rw [if_neg hall, hmin, advance, if_neg (by omega), Nat.sub_self]
  · have hmin : min len s.buffered = 0 := by
      unfold buffered
      omega
    rw [if_neg hnone, hmin, advance_zero hs, Nat.sub_zero]

theorem skipForward_keeps (len : Nat) : Keeps Positioned (skipForward len) := by
  refine Spec.at_state fun s hs t ht => ?_
  subst ht
  unfold skipForward
  by_cases hcan : t.isSeekable = true ∧ len ≠ 0
  · rw [if_pos hcan]
    by_cases hbig : len > offMax
    · rw [if_pos hbig]
      exact hs
    · rw [if_neg hbig]
      cases t.lseek len with
      | ok offset => exact ⟨hs.in_le, hs.out_lt⟩
      | error e =>
          cases e with
          | eoverflow => exact hs
          | espipe => exact skipLoop_keeps len len _ ⟨hs.in_le, hs.out_lt⟩
  · rw [if_neg hcan]
    exact skipLoop_keeps len len t hs

theorem skip_keeps (len : Nat) : Keeps Positioned (skip len) := by
  refine Keeps.seq ?_ fun rest => skipForward_keeps rest
  refine Spec.at_state fun s hs t ht => ?_
  subst ht
  rw [discardBuffered_eq hs]
  exact advance_positioned hs (Nat.min_le_right _ _)

/-- Every source that reads and skips lead to has its positions in order. -/
theorem after_positioned (calls : List Call) {s : FdSource} (hs : s.Positioned) :
    (after calls s).Positioned := by
  induction calls generalizing s with
  | nil => exact hs
  | cons c calls ih =>
      refine ih (Keeps.final ?_ hs)
      cases c with
      | read len => exact bufferedRead_keeps len
      | skip len => exact Keeps.seq (skip_keeps len) fun _ => Keeps.ret []

theorem ofDescriptor_positioned (file : OpenFile) (offset : Nat) :
    (ofDescriptor file offset).Positioned := ⟨Nat.le_refl 0, Or.inr ⟨rfl, rfl⟩⟩

/-- A skip within the buffer. -/
theorem skip_within {s : FdSource} (hs : s.Positioned) {len : Nat} (h : len ≤ s.buffered) :
    skip len s = .ok () (advance len s) := by
  have hnone : ¬ ((advance len s).isSeekable = true ∧ (0 : Nat) ≠ 0) := fun h => h.2 rfl
  rw [skip, bind_of_ok (discardBuffered_eq hs len), Nat.min_eq_left h, Nat.sub_self, skipForward,
    if_neg hnone]
  rfl

/-- A source whose buffer was discarded. -/
def emptied (s : FdSource) : FdSource := { s with bufPosIn := 0, bufPosOut := 0 }

theorem advance_buffered_eq {s : FdSource} (hs : s.Positioned) : advance s.buffered s = s.emptied := by
  have hout := hs.out_lt
  unfold advance buffered
  exact if_pos (by omega)

/-- A skip beyond the buffer. -/
theorem skip_beyond {s : FdSource} (hs : s.Positioned) {len : Nat} (h : s.buffered < len) :
    skip len s = skipForward (len - s.buffered) s.emptied := by
  rw [skip, bind_of_ok (discardBuffered_eq hs len), Nat.min_eq_right (Nat.le_of_lt h),
    advance_buffered_eq hs]

theorem drops_beyond {s : FdSource} (hs : s.Positioned) {len : Nat} (h : s.buffered < len) :
    drops len s = drops (len - s.buffered) s.emptied := by
  have hsum : len = s.buffered + (len - s.buffered) := by omega
  conv_lhs => rw [hsum]
  rw [drops_add_of_ok (drops_within hs (Nat.le_refl _)), advance_buffered_eq hs]

theorem remaining_length {s : FdSource} (hs : s.Positioned) :
    s.remaining.length = s.buffered + (s.file.contents.length - s.offset) := by
  have hin := hs.in_le
  rw [remaining, List.length_append, List.length_drop, List.length_take, List.length_drop, buffered,
    Nat.min_eq_left hin]

/-- Reading on from an empty buffer leaves the buffer filled up to where the last
    refill ended. -/
theorem drops_regular {contents : Bytes} {hsize : contents.length ≤ offMax} (n : Nat) {s : FdSource}
    (hfile : s.file = .regular contents hsize) (hin : s.bufPosIn = 0) (hout : s.bufPosOut = 0)
    (hn : s.offset + n ≤ contents.length) :
    ∃ t, drops n s = .ok () t ∧ t.Positioned ∧
      t = { s with
        buffer := t.buffer
        bufPosIn := t.bufPosIn
        bufPosOut := t.bufPosOut
        offset := s.offset + n + t.buffered
        read := s.read + n + t.buffered } ∧
      (t.buffered = 0 ↔ s.offset + n = contents.length ∨ n % bufSize = 0) := by
  have hpos : s.Positioned := ⟨hin ▸ Nat.zero_le _, Or.inr ⟨hin, hout⟩⟩
  induction n using Nat.strong_induction_on generalizing s with
  | _ n ih =>
  by_cases hzero : n = 0
  · subst hzero
    have hempty : s.buffered = 0 := by
      unfold buffered
      omega
    refine ⟨s, rfl, hpos, ?_, ?_⟩
    · rw [hempty]
      rfl
    · rw [hempty, Nat.zero_mod]
      simp
  · have hcontents : s.file.contents = contents := by rw [hfile]; rfl
    have hmore : s.offset < s.file.contents.length := by
      rw [hcontents]
      omega
    have hfilled := filled_positioned hout hmore
    obtain ⟨f, hf⟩ : ∃ f, f = s.filled.buffered := ⟨_, rfl⟩
    have hamount : f = min bufSize (contents.length - s.offset) := by
      rw [hf, buffered_filled hout, hfile]
      rfl
    have hdata : (s.file.readAt s.offset bufSize).length = f := by
      rw [hf, buffered_filled hout, OpenFile.length_readAt]
    have hdrops : drops n s = drops n s.filled := by
      obtain ⟨k, rfl⟩ : ∃ k, n = k + 1 := ⟨n - 1, by omega⟩
      exact drops_filled hin hout hmore k
    by_cases hwithin : n ≤ f
    · -- the first refill is enough
      have hbuf : (advance n s.filled).buffered = f - n := by rw [advance_buffered, ← hf]
      refine ⟨advance n s.filled, ?_, advance_positioned hfilled (hf ▸ hwithin), ?_, ?_⟩
      · rw [hdrops]
        exact drops_within hfilled (hf ▸ hwithin)
      · have hoffset : s.offset + n + (f - n) = s.offset + f := by omega
        have hread : s.read + n + (f - n) = s.read + f := by omega
        rw [hbuf, hoffset, hread, ← hdata]
        unfold advance
        split
        · rfl
        · rfl
      · rw [hbuf]
        unfold bufSize at hamount ⊢
        omega
    · -- the first refill is a whole buffer, and the rest is read on from there
      have hfull : f = bufSize := by omega
      have hnext := advance_buffered_eq hfilled
      rw [← hf] at hnext
      obtain ⟨t, ht, htpos, htfields, htempty⟩ := ih (n - f) (by unfold bufSize at hfull; omega)
        (s := s.filled.emptied) hfile rfl rfl
        (by show s.offset + (s.file.readAt s.offset bufSize).length + (n - f) ≤ _; omega)
        (by rw [← hnext]; exact advance_positioned hfilled (Nat.le_of_eq hf))
      refine ⟨t, ?_, htpos, ?_, ?_⟩
      · have hsum : n = f + (n - f) := by omega
        rw [hdrops, hsum, drops_add_of_ok (drops_within hfilled (Nat.le_of_eq hf)), hnext]
        exact ht
      · have hoffset : s.filled.emptied.offset + (n - f) = s.offset + n := by
          show s.offset + (s.file.readAt s.offset bufSize).length + (n - f) = _
          omega
        have hread : s.filled.emptied.read + (n - f) = s.read + n := by
          show s.read + (s.file.readAt s.offset bufSize).length + (n - f) = _
          omega
        rw [hoffset, hread] at htfields
        exact htfields
      · have hoffset : s.filled.emptied.offset + (n - f) = s.offset + n := by
          show s.offset + (s.file.readAt s.offset bufSize).length + (n - f) = _
          omega
        rw [htempty, hoffset, hfull, ← Nat.mod_eq_sub_mod (by omega)]

-- ============================================================================
-- Section 5: When a skip agrees with reading
-- ============================================================================

/-- The skips that agree with reading and discarding.  Either nothing is seeked,
    or the seek ends where a refill of the buffer would have ended; a pipe that
    still counts as seekable stops counting as such, which a later skip by more
    than an `off_t` holds can tell. -/
def SkipsAsRead (s : FdSource) (len : Nat) : Prop :=
  len ≤ s.buffered ∨ s.isSeekable = false ∨
  match s.file with
  | .regular contents _ =>
      s.offset + (len - s.buffered) = contents.length ∨
      s.offset + (len - s.buffered) < contents.length ∧ (len - s.buffered) % bufSize = 0
  | .stream _ _ => s.remaining.length < len ∧ len - s.buffered ≤ offMax

theorem agrees_of_eq {s : FdSource} (hs : s.Positioned) {len : Nat}
    (h : skip len s = readAndDiscard len s) : AgreesWithReading s len := by
  rcases drops_spec hs len with ⟨hle, t, hrun, -, -⟩ | ⟨hlt, t, hrun, -⟩
  · rw [← readAndDiscard_eq_drops hs] at hrun
    refine ⟨?_, fun _ => ⟨t, t, h.trans hrun, hrun, rfl, fun _ => rfl⟩⟩
    constructor
    · rintro ⟨s', hthrow⟩
      rw [h, hrun] at hthrow
      cases hthrow
    · intro hlt
      omega
  · rw [← readAndDiscard_eq_drops hs] at hrun
    refine ⟨?_, fun hle => by omega⟩
    exact ⟨fun _ => hlt, fun _ => ⟨t, h.trans hrun⟩⟩

theorem emptied_positioned (s : FdSource) : s.emptied.Positioned :=
  ⟨Nat.zero_le _, Or.inr ⟨rfl, rfl⟩⟩

theorem agrees_within {s : FdSource} (hs : s.Positioned) {len : Nat} (h : len ≤ s.buffered) :
    AgreesWithReading s len := by
  apply agrees_of_eq hs
  rw [skip_within hs h, readAndDiscard_eq_drops hs, drops_within hs h]

/-- Without a seek the rest is skipped by reading. -/
theorem skip_eq_drops {s : FdSource} (hs : s.Positioned) (hflag : s.isSeekable = false)
    (len : Nat) : skip len s = drops len s := by
  by_cases h : len ≤ s.buffered
  · rw [skip_within hs h, drops_within hs h]
  · have hbeyond := Nat.lt_of_not_le h
    have hnone : ¬ (s.emptied.isSeekable = true ∧ len - s.buffered ≠ 0) := by
      rintro ⟨htrue, -⟩
      have hfalse : s.emptied.isSeekable = false := hflag
      rw [hfalse] at htrue
      cases htrue
    rw [skip_beyond hs hbeyond, drops_beyond hs hbeyond, skipForward, if_neg hnone,
      readAndDiscard_eq_drops s.emptied_positioned]

/-- What is left of a skip on a source that counts as seekable. -/
theorem skip_seekable {s : FdSource} (hs : s.Positioned) {len : Nat} (h : s.buffered < len)
    (hflag : s.isSeekable = true) (hsmall : len - s.buffered ≤ offMax) :
    skip len s = match s.lseek (len - s.buffered) with
      | .ok offset => .ok () { s.emptied with
          offset := offset
          read := s.read + (len - s.buffered) }
      | .error .eoverflow => .error (.error "seeking forward in file") s.emptied
      | .error .espipe =>
          readAndDiscard (len - s.buffered) { s.emptied with isSeekable := false } := by
  have hcan : s.emptied.isSeekable = true ∧ len - s.buffered ≠ 0 := ⟨hflag, by omega⟩
  have hseek : s.emptied.lseek (len - s.buffered) = s.lseek (len - s.buffered) := rfl
  rw [skip_beyond hs h, skipForward, if_pos hcan, if_neg (Nat.not_lt.mpr hsmall), hseek]
  cases s.lseek (len - s.buffered) with
  | ok offset => rfl
  | error e =>
      cases e with
      | eoverflow => rfl
      | espipe => rfl

theorem skip_too_far {s : FdSource} (hs : s.Positioned) (len : Nat) (h : s.buffered < len)
    (hflag : s.isSeekable = true) (hbig : offMax < len - s.buffered) :
    ∃ msg, skip len s = .error (.error msg) s.emptied := by
  have hcan : s.emptied.isSeekable = true ∧ len - s.buffered ≠ 0 := ⟨hflag, by omega⟩
  refine ⟨s!"cannot skip {len - s.buffered} bytes: exceeds maximum file offset", ?_⟩
  rw [skip_beyond hs h, skipForward, if_pos hcan, if_pos hbig]

/-- A seek does not notice the end of the file. -/
theorem skip_regular_not_eof {s : FdSource} (hs : s.Positioned) {len : Nat}
    (h : s.buffered < len) (hflag : s.isSeekable = true) {contents : Bytes}
    {hsize : contents.length ≤ offMax} (hfile : s.file = .regular contents hsize) :
    ¬ ∃ s', skip len s = .error .endOfFile s' := by
  rintro ⟨s', hthrow⟩
  by_cases hsmall : len - s.buffered ≤ offMax
  · rw [skip_seekable hs h hflag hsmall, lseek, hfile] at hthrow
    dsimp only at hthrow
    by_cases hover : s.offset + (len - s.buffered) > offMax
    · rw [if_pos hover] at hthrow
      cases hthrow
    · rw [if_neg hover] at hthrow
      cases hthrow
  · obtain ⟨msg, hmsg⟩ := skip_too_far hs len h hflag (Nat.lt_of_not_le hsmall)
    rw [hmsg] at hthrow
    cases hthrow

theorem agrees_regular_iff {s : FdSource} (hs : s.Positioned) {len : Nat} (h : s.buffered < len)
    (hflag : s.isSeekable = true) {contents : Bytes} {hsize : contents.length ≤ offMax}
    (hfile : s.file = .regular contents hsize) :
    AgreesWithReading s len ↔ s.offset + (len - s.buffered) = contents.length ∨
      s.offset + (len - s.buffered) < contents.length ∧ (len - s.buffered) % bufSize = 0 := by
  have hnoeof := skip_regular_not_eof hs h hflag hfile
  have hrem := remaining_length hs
  have hcontents : s.file.contents = contents := by rw [hfile]; rfl
  rw [hcontents] at hrem
  by_cases hfits : s.offset + (len - s.buffered) ≤ contents.length
  · -- within the file both return, and only the place of the buffer differs
    have hskip : skip len s = .ok () { s.emptied with
        offset := s.offset + (len - s.buffered)
        read := s.read + (len - s.buffered) } := by
      have hnover : ¬ s.offset + (len - s.buffered) > offMax := by omega
      rw [skip_seekable hs h hflag (by omega), lseek, hfile]
      dsimp only
      rw [if_neg hnover]
    obtain ⟨t, ht, htpos, htfields, htempty⟩ :=
      drops_regular (len - s.buffered) (s := s.emptied) hfile rfl rfl hfits
    rw [← drops_beyond hs h, ← readAndDiscard_eq_drops hs] at ht
    have hoffset : s.emptied.offset = s.offset := rfl
    rw [hoffset] at htfields htempty
    have hcondition : (s.offset + (len - s.buffered) = contents.length ∨
        s.offset + (len - s.buffered) < contents.length ∧ (len - s.buffered) % bufSize = 0) ↔
        t.buffered = 0 := by
      rw [htempty]
      omega
    rw [hcondition]
    constructor
    · intro hagrees
      obtain ⟨s', t', hs', ht', hread, -⟩ := hagrees.same_after (by omega)
      rw [hskip] at hs'
      rw [ht] at ht'
      cases hs'
      cases ht'
      have htread : t.read = s.read + (len - s.buffered) + t.buffered :=
        congrArg FdSource.read htfields
      have hsame : s.read + (len - s.buffered) = t.read := hread
      omega
    · intro hempty
      have hzero : t.bufPosIn = 0 ∧ t.bufPosOut = 0 := by
        have hlt := htpos.out_lt
        unfold buffered at hempty
        omega
      have hsame : Same { s.emptied with
          offset := s.offset + (len - s.buffered)
          read := s.read + (len - s.buffered) } t := by
        refine Or.inr ⟨rfl, rfl, ?_⟩
        rw [hzero.1, hzero.2, hempty, Nat.add_zero, Nat.add_zero] at htfields
        exact htfields
      refine ⟨⟨fun hthrow => absurd hthrow hnoeof, fun hlt => by omega⟩, fun _ => ?_⟩
      exact ⟨_, t, hskip, ht, hsame.read_eq, hsame.observe_eq⟩
  · -- beyond its end reading throws
    constructor
    · intro hagrees
      exact absurd (hagrees.throws_iff.mpr (by omega)) hnoeof
    · intro hcondition
      omega

theorem advance_flags (k : Nat) (s : FdSource) :
    (advance k s).file = s.file ∧ (advance k s).isSeekable = s.isSeekable := by
  unfold advance
  split
  · exact ⟨rfl, rfl⟩
  · exact ⟨rfl, rfl⟩

theorem drops_flags (n : Nat) (f : OpenFile) (b : Bool) :
    Keeps (fun s => s.file = f ∧ s.isSeekable = b) (drops n) := by
  have hread : Keeps (fun s => s.file = f ∧ s.isSeekable = b) (bufferedRead 1) := by
    refine Keeps.seq (fun s hs => ?_) fun _ s hs => ?_
    · by_cases hin : s.bufPosIn = 0
      · by_cases hmore : s.offset < s.file.contents.length
        · rw [fill_of_empty hin hmore]
          exact hs
        · rw [fill_at_end hin (Nat.le_of_not_lt hmore)]
          exact hs
      · rw [fill_of_buffered hin]
        exact hs
    · obtain ⟨hfile, hflag⟩ := advance_flags (min 1 s.buffered) s
      rw [copyOut_eq]
      exact ⟨hfile.trans hs.1, hflag.trans hs.2⟩
  induction n with
  | zero => exact Keeps.ret ()
  | succ n ih => exact Keeps.seq hread fun _ => ih

theorem agrees_stream_iff {s : FdSource} (hs : s.Positioned) {len : Nat} (h : s.buffered < len)
    (hflag : s.isSeekable = true) {contents : Bytes} {ready : Nat → Nat → Nat}
    (hfile : s.file = .stream contents ready) :
    AgreesWithReading s len ↔ s.remaining.length < len ∧ len - s.buffered ≤ offMax := by
  by_cases hsmall : len - s.buffered ≤ offMax
  · -- the source that is read from no longer counts as seekable
    obtain ⟨u, hu⟩ : ∃ u, u = { s.emptied with isSeekable := false } := ⟨_, rfl⟩
    have hupos : u.Positioned := by
      rw [hu]
      exact ⟨Nat.zero_le _, Or.inr ⟨rfl, rfl⟩⟩
    have hskip : skip len s = drops (len - s.buffered) u := by
      rw [skip_seekable hs h hflag hsmall, lseek, hfile]
      dsimp only
      rw [← hu, readAndDiscard_eq_drops hupos]
    have hurem := remaining_length hupos
    have hubuf : u.buffered = 0 := by rw [hu]; rfl
    have hufile : u.file = s.file := by rw [hu]; rfl
    have huoffset : u.offset = s.offset := by rw [hu]; rfl
    rw [hubuf, hufile, huoffset] at hurem
    have hrem := remaining_length hs
    rcases drops_spec hupos (len - s.buffered) with ⟨hle, s', hrun, -, -⟩ | ⟨hlt, s', hrun, -⟩
    · refine iff_of_false (fun hagrees => ?_) (fun hcondition => by omega)
      obtain ⟨s'', t, hs'', ht, -, hobserve⟩ := hagrees.same_after (by omega)
      rw [hskip] at hs''
      rw [readAndDiscard_eq_drops hs] at ht
      have hs''flag : s''.isSeekable = false :=
        ((drops_flags _ u.file false).of_ok ⟨rfl, by rw [hu]⟩ hs'').2
      have htflag : t.isSeekable = true := ((drops_flags _ s.file true).of_ok ⟨rfl, hflag⟩ ht).2
      have hs''pos : s''.Positioned := by
        rcases drops_spec hupos (len - s.buffered) with ⟨-, v, hv, hvpos, -⟩ | ⟨-, v, hv, -⟩
        · rw [hs''] at hv
          cases hv
          exact hvpos
        · rw [hs''] at hv
          cases hv
      have htpos : t.Positioned := by
        rcases drops_spec hs len with ⟨-, v, hv, hvpos, -⟩ | ⟨-, v, hv, -⟩
        · rw [ht] at hv
          cases hv
          exact hvpos
        · rw [ht] at hv
          cases hv
      -- a skip that no `off_t` holds tells them apart
      obtain ⟨far, hfar⟩ : ∃ far, far = t.buffered + offMax + 1 := ⟨_, rfl⟩
      obtain ⟨msg, hmsg⟩ := skip_too_far htpos far (by omega) htflag (by omega)
      have hseen := hobserve [.skip far]
      have hleft : result (Call.skip far).run s'' = result (Call.skip far).run t :=
        (Prod.mk.inj (List.cons.inj hseen).1).1
      have hright : result (Call.skip far).run t = .error (.error msg) := by
        rw [result, Call.run, bind_of_error hmsg]
      rw [hright, result, Call.run] at hleft
      rcases drops_spec hs''pos far with ⟨-, v, hv, -, -⟩ | ⟨-, v, hv, -⟩
      · rw [← skip_eq_drops hs''pos hs''flag] at hv
        rw [bind_of_ok hv] at hleft
        cases hleft
      · rw [← skip_eq_drops hs''pos hs''flag] at hv
        rw [bind_of_error hv] at hleft
        cases hleft
    · refine iff_of_true ⟨⟨fun _ => by omega, fun _ => ⟨s', hskip.trans hrun⟩⟩, fun hle => ?_⟩
        ⟨by omega, hsmall⟩
      omega
  · obtain ⟨msg, hmsg⟩ := skip_too_far hs len h hflag (Nat.lt_of_not_le hsmall)
    refine iff_of_false (fun hagrees => ?_) (fun hcondition => hsmall hcondition.2)
    by_cases hlt : s.remaining.length < len
    · obtain ⟨s', hthrow⟩ := hagrees.throws_iff.mpr hlt
      rw [hmsg] at hthrow
      cases hthrow
    · obtain ⟨s', t, hs', -⟩ := hagrees.same_after (Nat.le_of_not_lt hlt)
      rw [hmsg] at hs'
      cases hs'

theorem agreesWithReading_iff {s : FdSource} (hs : s.Positioned) (len : Nat) :
    AgreesWithReading s len ↔ SkipsAsRead s len := by
  unfold SkipsAsRead
  by_cases hwithin : len ≤ s.buffered
  · exact iff_of_true (agrees_within hs hwithin) (Or.inl hwithin)
  · by_cases hflag : s.isSeekable = false
    · refine iff_of_true (agrees_of_eq hs ?_) (Or.inr (Or.inl hflag))
      rw [skip_eq_drops hs hflag, readAndDiscard_eq_drops hs]
    · have htrue : s.isSeekable = true := by simpa using hflag
      rw [or_iff_right hwithin, or_iff_right hflag]
      cases hfile : s.file with
      | regular contents hsize =>
          exact agrees_regular_iff hs (Nat.lt_of_not_le hwithin) htrue hfile
      | stream contents ready =>
          exact agrees_stream_iff hs (Nat.lt_of_not_le hwithin) htrue hfile

/-- Whatever was read and skipped before, a skip agrees with reading and
    discarding exactly if it stays in the buffer, cannot seek, or seeks to where
    a refill would have ended. -/
theorem fdSkip_agrees_iff (file : OpenFile) (offset : Nat) (calls : List Call) (len : Nat) :
    AgreesWithReading (after calls (ofDescriptor file offset)) len ↔
      SkipsAsRead (after calls (ofDescriptor file offset)) len :=
  agreesWithReading_iff (after_positioned calls (ofDescriptor_positioned file offset)) len

/-- Ten bytes of a file of three are skipped without an exception. -/
theorem skip_past_end : ¬ AgreesWithReading
    (after [] (ofDescriptor (.regular (ascii "abc") (by decide)) 0)) 10 := by
  intro h
  obtain ⟨s', hthrow⟩ := h.throws_iff.mpr (by decide)
  cases hthrow

end FdSource
end NixStore
