/-
  NixStore.Store.PathLocks

  Lock files and the garbage collector's lock
  (`libstore/unix/pathlocks.cc`), at the granularity of system calls.

  A lock file may be unlinked by its holder while others wait for the lock on
  the old inode.  The holder therefore writes to the inode after it has
  unlinked the name and before it releases the lock, and whoever gets a lock
  looks at the size of the file.  What breaks the exclusion is `lockPaths`
  (and `FdLock`) going on after a blocking `flock` that was interrupted.
-/

import NixStore.Lib.Transition
import Mathlib.Data.Finset.Basic

set_option linter.unusedSectionVars false

namespace NixStore
namespace PathLocks

/-- Where a process is in `lockPaths({path})` and in `unlock`.  Each `Nat` is
    the inode of its open lock file. -/
inductive Pc (Path : Type) where
  | idle
  /-- `openLockFile` has returned. -/
  | opened (path : Path) (i : Nat)
  /-- The non-blocking `flock` has failed with `EWOULDBLOCK`. -/
  | waiting (path : Path) (i : Nat)
  /-- The call of `lockFile` that was waited for has returned. -/
  | acquired (path : Path) (i : Nat)
  /-- `fstat` has shown that the file is stale. -/
  | stale (path : Path) (i : Nat)
  /-- The file has been opened again, the old descriptor is not closed yet. -/
  | reopened (path : Path) (old new : Nat)
  /-- `lockPaths` has returned. -/
  | inside (path : Path) (i : Nat)
  /-- In `deleteLockFile`, after `tryUnlink`. -/
  | unlinked (path : Path) (i : Nat)
  /-- In `deleteLockFile`, after `writeFull`. -/
  | marked (path : Path) (i : Nat)
deriving DecidableEq

namespace Pc

variable {Path : Type}

/-- The inode on which a process at this place has the lock, unless it was
    interrupted. -/
def locked : Pc Path → Option Nat
  | idle | opened .. | waiting .. => none
  | acquired _ i | stale _ i | reopened _ i _ | inside _ i | unlinked _ i | marked _ i => some i

/-- The lock file a process at this place goes on to lock or to look at. -/
def looking : Pc Path → Option (Path × Nat)
  | opened path i | waiting path i | acquired path i | reopened path _ i => some (path, i)
  | _ => none

/-- The path whose lock file a process at this place is busy with. -/
def path : Pc Path → Option Path
  | idle => none
  | opened p _ | waiting p _ | acquired p _ | stale p _ | reopened p _ _ | inside p _
  | unlinked p _ | marked p _ => some p

theorem path_of_looking {pc : Pc Path} {p : Path} {i : Nat} (h : pc.looking = some (p, i)) :
    pc.path = some p := by
  cases pc
  all_goals cases h
  all_goals rfl

end Pc

/-- Where a process is in the part of `collectGarbage` under its `FdLock`. -/
inductive GcPc where
  | idle
  /-- `openGCLock` has returned. -/
  | opened
  /-- The non-blocking `flock` has failed. -/
  | waiting
  /-- The constructor of `FdLock` has returned. -/
  | inside
deriving DecidableEq

/-- The file system, the lock table of the kernel, and the processes. -/
structure State (Pid Path : Type) where
  /-- The inode that each lock file's name refers to. -/
  files : Path → Option Nat
  /-- Whether something has been written to an inode. -/
  written : Nat → Bool
  /-- Who has the exclusive lock on an inode. -/
  holder : Nat → Option Pid
  nextInode : Nat
  pc : Pid → Pc Path
  /-- The exclusive lock on the GC lock file, which is never unlinked. -/
  gcHolder : Option Pid
  /-- The shared locks on it (`addTempRoot`). -/
  gcShared : Finset Pid
  gcPc : Pid → GcPc

variable {Pid Path : Type} [DecidableEq Pid] [DecidableEq Path]

namespace State

/-- A process moves on. -/
def setPc (s : State Pid Path) (p : Pid) (pc : Pc Path) : State Pid Path :=
  { s with pc := Function.update s.pc p pc }

/-- `flock` with `LOCK_EX` returns 0. -/
def grant (s : State Pid Path) (i : Nat) (p : Pid) : State Pid Path :=
  { s with holder := Function.update s.holder i (some p) }

/-- The last descriptor of an open file is closed. -/
def release (s : State Pid Path) (i : Nat) (p : Pid) : State Pid Path :=
  { s with holder := if s.holder i = some p then Function.update s.holder i none else s.holder }

/-- `open` with `O_CREAT`: the inode, and the state afterwards. -/
def openCreate (s : State Pid Path) (path : Path) : Nat × State Pid Path :=
  match s.files path with
  | some i => (i, s)
  | none => (s.nextInode, { s with
      files := Function.update s.files path (some s.nextInode), nextInode := s.nextInode + 1 })

/-- `unlink`. -/
def unlink (s : State Pid Path) (path : Path) : State Pid Path :=
  { s with files := Function.update s.files path none }

/-- `write` of the marker. -/
def mark (s : State Pid Path) (i : Nat) : State Pid Path :=
  { s with written := Function.update s.written i true }

/-- A collector moves on. -/
def setGcPc (s : State Pid Path) (p : Pid) (pc : GcPc) : State Pid Path :=
  { s with gcPc := Function.update s.gcPc p pc }

/-- The end of a process: the kernel closes what it has open. -/
def closeAll (s : State Pid Path) (p : Pid) : State Pid Path :=
  { s.setPc p .idle with holder := fun i => if s.holder i = some p then none else s.holder i }

theorem setPc_self (s : State Pid Path) (p : Pid) (pc : Pc Path) : (s.setPc p pc).pc p = pc :=
  Function.update_self _ _ _

theorem setPc_of_ne (s : State Pid Path) {p q : Pid} (pc : Pc Path) (h : q ≠ p) :
    (s.setPc p pc).pc q = s.pc q :=
  Function.update_of_ne h _ _

end State

/-- The system calls of `lockPaths({path})` and `unlock`. -/
inductive LockCall (Path : Type) where
  /-- `openLockFile(lockPath, true)`. -/
  | openFile (path : Path)
  /-- `flock(desc, LOCK_EX | LOCK_NB)`. -/
  | flockNonBlocking
  /-- `flock(desc, LOCK_EX)` returns 0. -/
  | flock
  /-- `flock(desc, LOCK_EX)` fails with `EINTR`. -/
  | flockInterrupted
  /-- `lockPaths` was called with `wait = false` and returns false. -/
  | giveUp
  | fstat
  /-- The assignment to `fd` closes the descriptor it held. -/
  | closeOld
  /-- `unlock` with `deletePaths`: `tryUnlink`. -/
  | unlink
  | write
  | close
deriving DecidableEq

/-- The system calls on the GC lock file. -/
inductive GcCall where
  /-- `openGCLock` of `collectGarbage`. -/
  | openFile
  /-- `flock(desc, LOCK_EX | LOCK_NB)`. -/
  | flockNonBlocking
  /-- `flock(desc, LOCK_EX)` returns 0. -/
  | flock
  /-- `flock(desc, LOCK_EX)` fails with `EINTR`. -/
  | flockInterrupted
  /-- The end of `collectGarbage`. -/
  | close
  /-- `FdLock(…, ltRead, false, "")` of `addTempRoot`. -/
  | share
  /-- Its destructor. -/
  | unshare
deriving DecidableEq

/-- What a process does next. -/
inductive Call (Path : Type) where
  | lock (call : LockCall Path)
  | gc (call : GcCall)
deriving DecidableEq

/-- A step of `lockPaths` or `unlock`. -/
def lockStep (s : State Pid Path) (p : Pid) (call : LockCall Path) : Option (State Pid Path) :=
  match s.pc p, call with
  | .idle, .openFile path =>
      let r := s.openCreate path
      some (r.2.setPc p (.opened path r.1))
  | .opened path i, .flockNonBlocking =>
      if s.holder i = none then some ((s.grant i p).setPc p (.acquired path i))
      else some (s.setPc p (.waiting path i))
  | .waiting path i, .flock =>
      if s.holder i = none then some ((s.grant i p).setPc p (.acquired path i)) else none
  | .waiting path i, .flockInterrupted =>
      -- `lockFile` returns false, which `lockPaths` does not look at
      some (s.setPc p (.acquired path i))
  | .waiting _ _, .giveUp => some (s.setPc p .idle)
  | .acquired path i, .fstat =>
      some (s.setPc p (if s.written i then .stale path i else .inside path i))
  | .stale path i, .openFile path' =>
      if path' = path then
        let r := s.openCreate path
        some (r.2.setPc p (.reopened path i r.1))
      else none
  | .reopened path i j, .closeOld => some ((s.setPc p (.opened path j)).release i p)
  | .inside path i, .unlink => some ((s.setPc p (.unlinked path i)).unlink path)
  | .inside _ i, .close => some ((s.setPc p .idle).release i p)
  | .unlinked path i, .write => some ((s.mark i).setPc p (.marked path i))
  | .marked _ i, .close => some ((s.setPc p .idle).release i p)
  | _, _ => none

/-- A step on the GC lock file. -/
def gcStep (s : State Pid Path) (p : Pid) (call : GcCall) : Option (State Pid Path) :=
  match s.gcPc p, call with
  | .idle, .openFile => some (s.setGcPc p .opened)
  | .opened, .flockNonBlocking =>
      if s.gcHolder = none ∧ s.gcShared = ∅ then
        some ({ s with gcHolder := some p }.setGcPc p .inside)
      else some (s.setGcPc p .waiting)
  | .waiting, .flock =>
      if s.gcHolder = none ∧ s.gcShared = ∅ then
        some ({ s with gcHolder := some p }.setGcPc p .inside)
      else none
  | .waiting, .flockInterrupted =>
      -- `acquired` is false then, which `collectGarbage` does not look at
      some (s.setGcPc p .inside)
  | .inside, .close =>
      some ({ s with gcHolder := if s.gcHolder = some p then none else s.gcHolder }.setGcPc p .idle)
  | _, .share =>
      if s.gcHolder = none then some { s with gcShared := insert p s.gcShared } else none
  | _, .unshare => some { s with gcShared := s.gcShared.erase p }
  | _, _ => none

/-- No lock file exists and nobody has started. -/
def initial : State Pid Path where
  files := fun _ => none
  written := fun _ => false
  holder := fun _ => none
  nextInode := 0
  pc := fun _ => .idle
  gcHolder := none
  gcShared := ∅
  gcPc := fun _ => .idle

/-- Any number of processes, taking their steps in any order. -/
def system : System (State Pid Path) (Pid × Call Path) where
  init := fun s => s = initial
  step := fun s a =>
    match a.2 with
    | .lock call => lockStep s a.1 call
    | .gc call => gcStep s a.1 call

/-- No blocking `flock` is interrupted. -/
def Uninterrupted (_ : State Pid Path) (a : Pid × Call Path) : Prop :=
  a.2 ≠ .lock .flockInterrupted ∧ a.2 ≠ .gc .flockInterrupted

-- ============================================================================
-- What every reached state has
-- ============================================================================

/-- A lock file that is being looked at is the current one, or it is marked, or
    its last holder is about to mark it. -/
def Accounted (s : State Pid Path) (path : Path) (i : Nat) : Prop :=
  s.files path = some i ∨ s.written i = true ∨ ∃ q path', s.pc q = .unlinked path' i

/-- The invariant of lock files. -/
structure LockInv (s : State Pid Path) : Prop where
  holds : ∀ p i, (s.pc p).locked = some i → s.holder i = some p
  inside : ∀ p path i, s.pc p = .inside path i → s.files path = some i
  looking : ∀ p path i, (s.pc p).looking = some (path, i) → Accounted s path i
  written_lt : ∀ i, s.written i = true → i < s.nextInode
  holder_lt : ∀ i p, s.holder i = some p → i < s.nextInode
  files_lt : ∀ path i, s.files path = some i → i < s.nextInode
  looking_lt : ∀ p path i, (s.pc p).looking = some (path, i) → i < s.nextInode

/-- The invariant of the GC lock. -/
def GcInv (s : State Pid Path) : Prop := ∀ p, s.gcPc p = .inside → s.gcHolder = some p

theorem lockInv_initial : LockInv (initial : State Pid Path) where
  holds := fun _ _ h => nomatch h
  inside := fun _ _ _ h => nomatch h
  looking := fun _ _ _ h => nomatch h
  written_lt := fun _ h => nomatch h
  holder_lt := fun _ _ h => nomatch h
  files_lt := fun _ _ h => nomatch h
  looking_lt := fun _ _ _ h => nomatch h

section Moves

variable {s : State Pid Path} {p : Pid} {path : Path} {i : Nat}

/-- A process moves on while files and locks stay as they are. -/
theorem LockInv.setPc (h : LockInv s) (pc : Pc Path)
    (hlocked : ∀ i, pc.locked = some i → s.holder i = some p)
    (hinside : ∀ path i, pc = .inside path i → s.files path = some i)
    (hlooking : ∀ path i, pc.looking = some (path, i) → Accounted s path i ∧ i < s.nextInode)
    (hmarked : ∀ path i, s.pc p = .unlinked path i → s.written i = true) :
    LockInv (s.setPc p pc) := by
  have hkeep : ∀ path i, Accounted s path i → Accounted (s.setPc p pc) path i := by
    rintro path i (hfile | hwritten | ⟨q, path', hq⟩)
    · exact Or.inl hfile
    · exact Or.inr (Or.inl hwritten)
    · by_cases hqp : q = p
      · subst hqp
        exact Or.inr (Or.inl (hmarked path' i hq))
      · exact Or.inr (Or.inr ⟨q, path', (State.setPc_of_ne _ _ hqp).trans hq⟩)
  -- each clause is about the process that moved or about another one
  have hcases : ∀ {P : Pc Path → Prop} (q : Pid), P ((s.setPc p pc).pc q) →
      (q = p ∧ P pc) ∨ P (s.pc q) := by
    intro P q hP
    by_cases hqp : q = p
    · subst hqp
      rw [State.setPc_self] at hP
      exact Or.inl ⟨rfl, hP⟩
    · rw [State.setPc_of_ne _ _ hqp] at hP
      exact Or.inr hP
  refine ⟨?_, ?_, ?_, h.written_lt, h.holder_lt, h.files_lt, ?_⟩
  · intro q i hq
    rcases hcases (P := fun c => c.locked = some i) q hq with ⟨rfl, hpc⟩ | hold
    · exact hlocked i hpc
    · exact h.holds q i hold
  · intro q path i hq
    rcases hcases (P := fun c => c = .inside path i) q hq with ⟨rfl, hpc⟩ | hold
    · exact hinside path i hpc
    · exact h.inside q path i hold
  · intro q path i hq
    rcases hcases (P := fun c => c.looking = some (path, i)) q hq with ⟨rfl, hpc⟩ | hold
    · exact hkeep path i (hlooking path i hpc).1
    · exact hkeep path i (h.looking q path i hold)
  · intro q path i hq
    rcases hcases (P := fun c => c.looking = some (path, i)) q hq with ⟨rfl, hpc⟩ | hold
    · exact (hlooking path i hpc).2
    · exact h.looking_lt q path i hold

/-- A free lock is granted. -/
theorem LockInv.grant (h : LockInv s) (hfree : s.holder i = none) (hlt : i < s.nextInode) :
    LockInv (s.grant i p) := by
  refine ⟨?_, h.inside, h.looking, h.written_lt, ?_, h.files_lt, h.looking_lt⟩
  · intro q j hq
    have hold := h.holds q j hq
    have hne : j ≠ i := by
      rintro rfl
      rw [hfree] at hold
      cases hold
    exact (Function.update_of_ne hne _ _).trans hold
  · intro j q hj
    by_cases hji : j = i
    · rw [hji]
      exact hlt
    · exact h.holder_lt j q ((Function.update_of_ne hji _ _).symm.trans hj)

/-- A lock is given back that no process counts on any more. -/
theorem LockInv.release (h : LockInv s) (hunused : ∀ q, (s.pc q).locked = some i → q ≠ p) :
    LockInv (s.release i p) := by
  by_cases hmine : s.holder i = some p
  · have heq : s.release i p = { s with holder := Function.update s.holder i none } := by
      rw [State.release, if_pos hmine]
    rw [heq]
    refine ⟨?_, h.inside, h.looking, h.written_lt, ?_, h.files_lt, h.looking_lt⟩
    · intro q j hq
      have hold := h.holds q j hq
      have hne : j ≠ i := by
        rintro rfl
        rw [hmine] at hold
        exact hunused q hq (Option.some.inj hold).symm
      exact (Function.update_of_ne hne _ _).trans hold
    · intro j q hj
      by_cases hji : j = i
      · subst hji
        have hnone : Function.update s.holder j none j = some q := hj
        rw [Function.update_self] at hnone
        cases hnone
      · exact h.holder_lt j q ((Function.update_of_ne hji _ _).symm.trans hj)
  · have heq : s.release i p = s := by
      rw [State.release, if_neg hmine]
    rw [heq]
    exact h

/-- The lock file is opened or created. -/
theorem LockInv.openCreate (h : LockInv s) (path : Path) :
    LockInv (s.openCreate path).2 ∧ (s.openCreate path).2.files path = some (s.openCreate path).1 := by
  cases hfile : s.files path with
  | some i =>
      have heq : s.openCreate path = (i, s) := by rw [State.openCreate, hfile]
      rw [heq]
      exact ⟨h, hfile⟩
  | none =>
      have heq : s.openCreate path = (s.nextInode, { s with
          files := Function.update s.files path (some s.nextInode)
          nextInode := s.nextInode + 1 }) := by
        rw [State.openCreate, hfile]
      rw [heq]
      refine ⟨⟨h.holds, ?_, ?_, ?_, ?_, ?_, ?_⟩, Function.update_self _ _ _⟩
      · intro q path' i hq
        have hold := h.inside q path' i hq
        have hne : path' ≠ path := by
          rintro rfl
          rw [hfile] at hold
          cases hold
        exact (Function.update_of_ne hne _ _).trans hold
      · intro q path' i hq
        rcases h.looking q path' i hq with hold | hrest
        · have hne : path' ≠ path := by
            rintro rfl
            rw [hfile] at hold
            cases hold
          exact Or.inl ((Function.update_of_ne hne _ _).trans hold)
        · exact Or.inr hrest
      · exact fun i hi => Nat.lt_succ_of_lt (h.written_lt i hi)
      · exact fun i q hi => Nat.lt_succ_of_lt (h.holder_lt i q hi)
      · intro path' i hi
        by_cases hpath : path' = path
        · subst hpath
          have hnew : Function.update s.files path' (some s.nextInode) path' = some i := hi
          rw [Function.update_self] at hnew
          cases hnew
          exact Nat.lt_succ_self _
        · exact Nat.lt_succ_of_lt
            (h.files_lt path' i ((Function.update_of_ne hpath _ _).symm.trans hi))
      · exact fun q path' i hq => Nat.lt_succ_of_lt (h.looking_lt q path' i hq)

/-- The marker is written to an inode that somebody has locked. -/
theorem LockInv.mark (h : LockInv s) (hp : s.holder i = some p) : LockInv (s.mark i) := by
  refine ⟨h.holds, h.inside, ?_, ?_, h.holder_lt, h.files_lt, h.looking_lt⟩
  · intro q path j hq
    rcases h.looking q path j hq with hfile | hwritten | hlast
    · exact Or.inl hfile
    · refine Or.inr (Or.inl ?_)
      show Function.update s.written i true j = true
      by_cases hji : j = i
      · rw [hji, Function.update_self]
      · rw [Function.update_of_ne hji]
        exact hwritten
    · exact Or.inr (Or.inr hlast)
  · intro j hj
    by_cases hji : j = i
    · rw [hji]
      exact h.holder_lt i p hp
    · exact h.written_lt j ((Function.update_of_ne hji _ _).symm.trans hj)

/-- The name is unlinked by the process that was inside. -/
theorem LockInv.unlink (h : LockInv s) (hp : s.pc p = .inside path i) :
    LockInv ((s.setPc p (.unlinked path i)).unlink path) := by
  have hfile := h.inside p path i hp
  have hheld := h.holds p i (by rw [hp]; rfl)
  have hmoved : LockInv (s.setPc p (.unlinked path i)) := by
    refine h.setPc _ ?_ (fun _ _ hpc => nomatch hpc) (fun _ _ hpc => nomatch hpc) ?_
    · intro j hj
      cases hj
      exact hheld
    · intro path' j hpc
      rw [hp] at hpc
      cases hpc
  refine ⟨hmoved.holds, ?_, ?_, hmoved.written_lt, hmoved.holder_lt, ?_, hmoved.looking_lt⟩
  · intro q path' j hq
    have hq' : (s.setPc p (.unlinked path i)).pc q = .inside path' j := hq
    have hne : q ≠ p := by
      rintro rfl
      rw [State.setPc_self] at hq'
      cases hq'
    have hfile' := hmoved.inside q path' j hq'
    have hpath : path' ≠ path := by
      rintro rfl
      -- two processes inside have the same inode locked
      have hj : j = i := Option.some.inj (hfile'.symm.trans hfile)
      have hheld' := hmoved.holds q j (by rw [hq']; rfl)
      rw [hj] at hheld'
      exact hne (Option.some.inj (hheld'.symm.trans hheld))
    exact (Function.update_of_ne hpath _ _).trans hfile'
  · intro q path' j hq
    rcases hmoved.looking q path' j hq with hfile' | hrest
    · by_cases hpath : path' = path
      · subst hpath
        have hj : j = i := Option.some.inj (hfile'.symm.trans hfile)
        rw [hj]
        exact Or.inr (Or.inr ⟨p, path', State.setPc_self _ _ _⟩)
      · exact Or.inl ((Function.update_of_ne hpath _ _).trans hfile')
    · exact Or.inr hrest
  · intro path' j hj
    by_cases hpath : path' = path
    · subst hpath
      have hnone : Function.update s.files path' none path' = some j := hj
      rw [Function.update_self] at hnone
      cases hnone
    · exact hmoved.files_lt path' j ((Function.update_of_ne hpath _ _).symm.trans hj)

/-- A lock file is unlinked that no process is busy with. -/
theorem LockInv.remove (h : LockInv s) (hfree : ∀ q, (s.pc q).path ≠ some path) :
    LockInv (s.unlink path) := by
  refine ⟨h.holds, ?_, ?_, h.written_lt, h.holder_lt, ?_, h.looking_lt⟩
  · intro q path' j hq
    have hpath : path' ≠ path := by
      rintro rfl
      apply hfree q
      rw [show s.pc q = .inside path' j from hq]
      rfl
    exact (Function.update_of_ne hpath _ _).trans (h.inside q path' j hq)
  · intro q path' j hq
    have hpath : path' ≠ path := by
      rintro rfl
      exact hfree q (Pc.path_of_looking hq)
    rcases h.looking q path' j hq with hfile | hrest
    · exact Or.inl ((Function.update_of_ne hpath _ _).trans hfile)
    · exact Or.inr hrest
  · intro path' j hj
    by_cases hpath : path' = path
    · subst hpath
      have hnone : Function.update s.files path' none path' = some j := hj
      rw [Function.update_self] at hnone
      cases hnone
    · exact h.files_lt path' j ((Function.update_of_ne hpath _ _).symm.trans hj)

/-- A process ends, but not between the unlinking and the marker. -/
theorem LockInv.closeAll (h : LockInv s) (hpc : ∀ path i, s.pc p ≠ .unlinked path i) :
    LockInv (s.closeAll p) := by
  have hmoved : LockInv (s.setPc p .idle) :=
    h.setPc _ (fun _ hj => nomatch hj) (fun _ _ heq => nomatch heq) (fun _ _ hj => nomatch hj)
      fun path i hj => absurd hj (hpc path i)
  refine ⟨?_, hmoved.inside, hmoved.looking, hmoved.written_lt, ?_, hmoved.files_lt,
    hmoved.looking_lt⟩
  · intro q j hq
    have hheld : s.holder j = some q := hmoved.holds q j hq
    have hne : q ≠ p := by
      rintro rfl
      have hidle : (s.closeAll q).pc q = .idle := State.setPc_self s q .idle
      rw [hidle] at hq
      cases hq
    show (if s.holder j = some p then none else s.holder j) = some q
    rw [if_neg fun heq => hne (Option.some.inj (hheld.symm.trans heq))]
    exact hheld
  · intro j q hj
    have hj' : (if s.holder j = some p then none else s.holder j) = some q := hj
    split at hj'
    · cases hj'
    · exact h.holder_lt j q hj'

end Moves

-- ============================================================================
-- Steps
-- ============================================================================

/-- Who gets the lock on a file and finds nothing written to it has the
    current file. -/
theorem LockInv.current {s : State Pid Path} (h : LockInv s) {p : Pid} {path : Path} {i : Nat}
    (hp : s.pc p = .acquired path i) (hwritten : s.written i = false) : s.files path = some i := by
  have hheld := h.holds p i (by rw [hp]; rfl)
  rcases h.looking p path i (by rw [hp]; rfl) with hfile | hw | ⟨q, path', hq⟩
  · exact hfile
  · rw [hwritten] at hw
    cases hw
  · -- the process that unlinked the file still has it locked
    have hheld' := h.holds q i (by rw [hq]; rfl)
    have hqp : q = p := Option.some.inj (hheld'.symm.trans hheld)
    rw [hqp, hp] at hq
    cases hq

/-- A step that opens the lock file, at first or again. -/
theorem LockInv.openFile {s : State Pid Path} (h : LockInv s) {p : Pid} (path : Path) {pc : Pc Path}
    (hlooking : pc.looking = some (path, (s.openCreate path).1))
    (hlocked : pc.locked = (s.pc p).locked) (hinside : ∀ path i, pc ≠ .inside path i)
    (hpc : ∀ path i, s.pc p ≠ .unlinked path i) : LockInv ((s.openCreate path).2.setPc p pc) := by
  obtain ⟨hopen, hfile⟩ := h.openCreate path
  have hsame : (s.openCreate path).2.holder = s.holder ∧ (s.openCreate path).2.pc = s.pc := by
    unfold State.openCreate
    split
    · exact ⟨rfl, rfl⟩
    · exact ⟨rfl, rfl⟩
  refine hopen.setPc pc ?_ (fun path' i heq => absurd heq (hinside path' i)) ?_ ?_
  · intro i hi
    rw [hsame.1]
    exact h.holds p i (hlocked.symm.trans hi)
  · intro path' i hi
    rw [hlooking] at hi
    cases hi
    exact ⟨Or.inl hfile, hopen.files_lt path _ hfile⟩
  · intro path' i hi
    rw [hsame.2] at hi
    exact absurd hi (hpc path' i)

/-- A step that gets the lock. -/
theorem LockInv.acquire {s : State Pid Path} (h : LockInv s) {p : Pid} {path : Path} {i : Nat}
    (hfree : s.holder i = none) (hlooking : (s.pc p).looking = some (path, i))
    (hpc : ∀ path i, s.pc p ≠ .unlinked path i) :
    LockInv ((s.grant i p).setPc p (.acquired path i)) := by
  refine (h.grant hfree (h.looking_lt p path i hlooking)).setPc _ ?_ (fun _ _ heq => nomatch heq)
    ?_ (fun path' j hj => absurd hj (hpc path' j))
  · intro j hj
    cases hj
    exact Function.update_self _ _ _
  · intro path' j hj
    cases hj
    exact ⟨h.looking p path i hlooking, h.looking_lt p path i hlooking⟩

/-- A step that only looks or gives up waiting. -/
theorem LockInv.proceed {s : State Pid Path} (h : LockInv s) {p : Pid} {pc : Pc Path}
    (hlocked : ∀ i, pc.locked = some i → (s.pc p).locked = some i)
    (hinside : ∀ path i, pc = .inside path i → s.files path = some i)
    (hlooking : ∀ path i, pc.looking = some (path, i) → (s.pc p).looking = some (path, i))
    (hpc : ∀ path i, s.pc p ≠ .unlinked path i) : LockInv (s.setPc p pc) :=
  h.setPc pc (fun i hi => h.holds p i (hlocked i hi)) hinside
    (fun path i hi => ⟨h.looking p path i (hlooking path i hi),
      h.looking_lt p path i (hlooking path i hi)⟩)
    (fun path i hi => absurd hi (hpc path i))

/-- A step that closes a descriptor. -/
theorem LockInv.close {s : State Pid Path} (h : LockInv s) {p : Pid} {pc : Pc Path} (i : Nat)
    (hlocked : pc.locked = none)
    (hlooking : ∀ path i, pc.looking = some (path, i) → (s.pc p).looking = some (path, i))
    (hpc : ∀ path i, s.pc p ≠ .unlinked path i) : LockInv ((s.setPc p pc).release i p) := by
  have hmoved : LockInv (s.setPc p pc) := by
    refine h.proceed (fun j hj => ?_) (fun path j heq => ?_) hlooking hpc
    · rw [hlocked] at hj
      cases hj
    · rw [heq] at hlocked
      cases hlocked
  refine hmoved.release ?_
  rintro q hq rfl
  rw [State.setPc_self, hlocked] at hq
  cases hq

theorem lockInv_lockStep {s s' : State Pid Path} {p : Pid} {call : LockCall Path}
    (h : LockInv s) (hcall : call ≠ .flockInterrupted) (hstep : lockStep s p call = some s') :
    LockInv s' := by
  unfold lockStep at hstep
  split at hstep
  · next path hpc =>
      cases hstep
      exact h.openFile path rfl (by rw [hpc]; rfl) (fun _ _ heq => nomatch heq) (by simp [hpc])
  · next path i hpc =>
      split at hstep
      · next hfree =>
          cases hstep
          exact h.acquire hfree (by rw [hpc]; rfl) (by simp [hpc])
      · cases hstep
        exact h.proceed (fun _ hj => nomatch hj) (fun _ _ heq => nomatch heq)
          (fun _ _ hj => by rw [hpc]; exact hj) (by simp [hpc])
  · next path i hpc =>
      split at hstep
      · next hfree =>
          cases hstep
          exact h.acquire hfree (by rw [hpc]; rfl) (by simp [hpc])
      · cases hstep
  · exact absurd rfl hcall
  · next path i hpc =>
      cases hstep
      exact h.proceed (fun _ hj => nomatch hj) (fun _ _ heq => nomatch heq)
        (fun _ _ hj => nomatch hj) (by simp [hpc])
  · next path i hpc =>
      cases hstep
      -- a file without the marker is the one that the name stands for
      cases hwritten : s.written i with
      | true =>
          exact h.proceed (fun _ hj => by rw [hpc]; exact hj) (fun _ _ heq => nomatch heq)
            (fun _ _ hj => nomatch hj) (by simp [hpc])
      | false =>
          refine h.proceed (fun _ hj => by rw [hpc]; exact hj) ?_
            (fun _ _ hj => nomatch hj) (by simp [hpc])
          intro path' j heq
          cases heq
          exact h.current hpc hwritten
  · next path i path' hpc =>
      split at hstep
      · cases hstep
        exact h.openFile path rfl (by rw [hpc]; rfl) (fun _ _ heq => nomatch heq) (by simp [hpc])
      · cases hstep
  · next path i j hpc =>
      cases hstep
      exact h.close i rfl (fun _ _ hj => by rw [hpc]; exact hj) (by simp [hpc])
  · next path i hpc =>
      cases hstep
      exact h.unlink hpc
  · next path i hpc =>
      cases hstep
      exact h.close i rfl (fun _ _ hj => nomatch hj) (by simp [hpc])
  · next path i hpc =>
      cases hstep
      -- whoever unlinked it still holds it, and marks it before it lets go
      have hheld := h.holds p i (by rw [hpc]; rfl)
      refine (h.mark hheld).setPc _ ?_ (fun _ _ heq => nomatch heq) (fun _ _ hj => nomatch hj) ?_
      · intro j hj
        cases hj
        exact hheld
      · intro path' j hj
        have hsame : s.pc p = .unlinked path' j := hj
        rw [hpc] at hsame
        cases hsame
        exact Function.update_self _ _ _
  · next path i hpc =>
      cases hstep
      exact h.close i rfl (fun _ _ hj => nomatch hj) (by simp [hpc])
  · cases hstep

theorem pc_openCreate (s : State Pid Path) (path : Path) : (s.openCreate path).2.pc = s.pc := by
  unfold State.openCreate
  split
  · rfl
  · rfl

/-- A step moves one process, and that one stays busy with its path or is done,
    or opens a lock file. -/
theorem lockStep_pc {s s' : State Pid Path} {p : Pid} {call : LockCall Path}
    (hstep : lockStep s p call = some s') :
    (∀ q, q ≠ p → s'.pc q = s.pc q) ∧
      ∀ path, (s'.pc p).path = some path →
        (s.pc p).path = some path ∨ call = .openFile path := by
  have hmoved : ∀ t : State Pid Path, t.pc = s.pc → ∀ pc : Pc Path,
      (∀ path, pc.path = some path → (s.pc p).path = some path ∨ call = .openFile path) →
      (∀ q, q ≠ p → (t.setPc p pc).pc q = s.pc q) ∧
      ∀ path, ((t.setPc p pc).pc p).path = some path →
        (s.pc p).path = some path ∨ call = .openFile path := by
    intro t ht pc hpath
    refine ⟨fun q hq => ?_, fun path h => ?_⟩
    · rw [State.setPc_of_ne _ _ hq, ht]
    · rw [State.setPc_self] at h
      exact hpath path h
  unfold lockStep at hstep
  split at hstep
  · cases hstep
    refine hmoved _ (pc_openCreate s _) _ fun path' h => Or.inr ?_
    cases h
    rfl
  · next hpc =>
      split at hstep
      · cases hstep
        exact hmoved _ rfl _ fun path h => Or.inl (by rw [hpc]; exact h)
      · cases hstep
        exact hmoved _ rfl _ fun path h => Or.inl (by rw [hpc]; exact h)
  · next hpc =>
      split at hstep
      · cases hstep
        exact hmoved _ rfl _ fun path h => Or.inl (by rw [hpc]; exact h)
      · cases hstep
  · next hpc =>
      cases hstep
      exact hmoved _ rfl _ fun path h => Or.inl (by rw [hpc]; exact h)
  · cases hstep
    exact hmoved _ rfl _ fun path h => nomatch h
  · next path i hpc =>
      cases hstep
      refine hmoved _ rfl _ fun path' h => Or.inl ?_
      rw [hpc]
      split at h
      · exact h
      · exact h
  · next path i path' hpc =>
      split at hstep
      · next heq =>
          cases hstep
          exact hmoved _ (pc_openCreate s _) _ fun path h => Or.inl (by rw [hpc]; exact h)
      · cases hstep
  · next hpc =>
      cases hstep
      exact hmoved _ rfl _ fun path h => Or.inl (by rw [hpc]; exact h)
  · next hpc =>
      cases hstep
      exact hmoved _ rfl _ fun path h => Or.inl (by rw [hpc]; exact h)
  · cases hstep
    exact hmoved _ rfl _ fun path h => nomatch h
  · next hpc =>
      cases hstep
      exact hmoved _ rfl _ fun path h => Or.inl (by rw [hpc]; exact h)
  · cases hstep
    exact hmoved _ rfl _ fun path h => nomatch h
  · cases hstep

theorem lockStep_close {s s' : State Pid Path} {p : Pid} (hstep : lockStep s p .close = some s') :
    s'.pc p = .idle := by
  unfold lockStep at hstep
  split at hstep
  all_goals first
    | (cases hstep; exact State.setPc_self s p .idle)
    | simp_all

/-- Steps on the GC lock leave lock files alone. -/
theorem lockInv_gcStep {s s' : State Pid Path} {p : Pid} {call : GcCall} (h : LockInv s)
    (hstep : gcStep s p call = some s') : LockInv s' := by
  have hframe : s'.files = s.files ∧ s'.written = s.written ∧ s'.holder = s.holder ∧
      s'.nextInode = s.nextInode ∧ s'.pc = s.pc := by
    unfold gcStep at hstep
    repeat' split at hstep
    all_goals cases hstep
    all_goals exact ⟨rfl, rfl, rfl, rfl, rfl⟩
  obtain ⟨hfiles, hwritten, hholder, hnext, hpc⟩ := hframe
  have hacc : ∀ path i, Accounted s path i → Accounted s' path i := by
    intro path i hi
    unfold Accounted at hi ⊢
    rwa [hfiles, hwritten, hpc]
  exact {
    holds := by rw [hpc, hholder]; exact h.holds
    inside := by rw [hpc, hfiles]; exact h.inside
    looking := fun q path i hq => hacc path i (h.looking q path i (by rwa [hpc] at hq))
    written_lt := by rw [hwritten, hnext]; exact h.written_lt
    holder_lt := by rw [hholder, hnext]; exact h.holder_lt
    files_lt := by rw [hfiles, hnext]; exact h.files_lt
    looking_lt := by rw [hpc, hnext]; exact h.looking_lt }

/-- Steps on lock files leave the GC lock alone. -/
theorem gcInv_lockStep {s s' : State Pid Path} {p : Pid} {call : LockCall Path} (h : GcInv s)
    (hstep : lockStep s p call = some s') : GcInv s' := by
  have hopen : ∀ path, (s.openCreate path).2.gcHolder = s.gcHolder ∧
      (s.openCreate path).2.gcPc = s.gcPc := by
    intro path
    unfold State.openCreate
    split
    · exact ⟨rfl, rfl⟩
    · exact ⟨rfl, rfl⟩
  have hframe : s'.gcHolder = s.gcHolder ∧ s'.gcPc = s.gcPc := by
    unfold lockStep at hstep
    repeat' split at hstep
    all_goals cases hstep
    all_goals first
      | exact hopen _
      | exact ⟨rfl, rfl⟩
  unfold GcInv
  rw [hframe.1, hframe.2]
  exact h

/-- A collector that has the free lock goes inside. -/
theorem GcInv.enter {s : State Pid Path} (h : GcInv s) {p : Pid} (hfree : s.gcHolder = none) :
    GcInv ({ s with gcHolder := some p }.setGcPc p .inside) := by
  intro q hq
  by_cases hqp : q = p
  · rw [hqp]
    rfl
  · have hold : s.gcPc q = .inside := (Function.update_of_ne hqp _ _).symm.trans hq
    have hheld := h q hold
    rw [hfree] at hheld
    cases hheld

/-- A collector that does not go inside. -/
theorem GcInv.stay {s : State Pid Path} (h : GcInv s) {p : Pid} {pc : GcPc} (hpc : pc ≠ .inside) :
    GcInv (s.setGcPc p pc) := by
  intro q hq
  by_cases hqp : q = p
  · subst hqp
    have hnew : Function.update s.gcPc q pc q = .inside := hq
    rw [Function.update_self] at hnew
    exact absurd hnew hpc
  · exact h q ((Function.update_of_ne hqp _ _).symm.trans hq)

theorem gcInv_gcStep {s s' : State Pid Path} {p : Pid} {call : GcCall} (h : GcInv s)
    (hcall : call ≠ .flockInterrupted) (hstep : gcStep s p call = some s') : GcInv s' := by
  unfold gcStep at hstep
  split at hstep
  · cases hstep
    exact h.stay (by decide)
  · split at hstep
    · next hfree =>
        cases hstep
        exact h.enter hfree.1
    · cases hstep
      exact h.stay (by decide)
  · split at hstep
    · next hfree =>
        cases hstep
        exact h.enter hfree.1
    · cases hstep
  · exact absurd rfl hcall
  · next hpc =>
      cases hstep
      intro q hq
      have hmine := h p hpc
      by_cases hqp : q = p
      · subst hqp
        have hnew : Function.update s.gcPc q .idle q = .inside := hq
        rw [Function.update_self] at hnew
        cases hnew
      · -- nobody else was inside
        have hold := h q ((Function.update_of_ne hqp _ _).symm.trans hq)
        rw [hmine] at hold
        exact absurd (Option.some.inj hold).symm hqp
  · split at hstep
    · cases hstep
      exact h
    · cases hstep
  · cases hstep
    exact h
  · cases hstep

-- ============================================================================
-- Exclusion
-- ============================================================================

theorem reachable_inv {s : State Pid Path} (h : system.Reachable Uninterrupted s) :
    LockInv s ∧ GcInv s := by
  refine h.invariant (I := fun s => LockInv s ∧ GcInv s) ?_ ?_
  · rintro _ rfl
    exact ⟨lockInv_initial, fun _ hp => nomatch hp⟩
  · rintro s s' ⟨p, call⟩ ⟨hlock, hgc⟩ ⟨hlockCall, hgcCall⟩ hstep
    cases call with
    | lock call =>
        refine ⟨lockInv_lockStep hlock ?_ hstep, gcInv_lockStep hgc hstep⟩
        rintro rfl
        exact hlockCall rfl
    | gc call =>
        refine ⟨lockInv_gcStep hlock hstep, gcInv_gcStep hgc ?_ hstep⟩
        rintro rfl
        exact hgcCall rfl

/-- While no blocking `flock` is interrupted, at most one process is between
    the return of `lockPaths` for a path and its `unlock`, and at most one
    collector is in the part it guards by its lock. -/
theorem lock_exclusion (s : State Pid Path) (h : system.Reachable Uninterrupted s) :
    (∀ p q path i j, s.pc p = .inside path i → s.pc q = .inside path j → p = q) ∧
      ∀ p q, s.gcPc p = .inside → s.gcPc q = .inside → p = q := by
  obtain ⟨hlock, hgc⟩ := reachable_inv h
  constructor
  · intro p q path i j hp hq
    have hij : i = j :=
      Option.some.inj ((hlock.inside p path i hp).symm.trans (hlock.inside q path j hq))
    have hheldp := hlock.holds p i (by rw [hp]; rfl)
    have hheldq := hlock.holds q j (by rw [hq]; rfl)
    rw [hij] at hheldp
    exact Option.some.inj (hheldp.symm.trans hheldq)
  · intro p q hp hq
    exact Option.some.inj ((hgc p hp).symm.trans (hgc q hq))

/-- One process locks, a second one waits, the first one unlinks the file and
    leaves, and the second one goes in over a new file. -/
def handover : List (Nat × Call Nat) :=
  [(0, .lock (.openFile 7)), (0, .lock .flockNonBlocking), (0, .lock .fstat),
    (1, .lock (.openFile 7)), (1, .lock .flockNonBlocking),
    (0, .lock .unlink), (0, .lock .write), (0, .lock .close),
    (1, .lock .flock), (1, .lock .fstat), (1, .lock (.openFile 7)), (1, .lock .closeOld),
    (1, .lock .flockNonBlocking), (1, .lock .fstat)]

/-- Nobody else is inside then. -/
theorem lock_exclusion_handover :
    ∃ s : State Nat Nat, system.run handover initial = some s ∧
      system.Reachable Uninterrupted s ∧ s.pc 1 = .inside 7 1 ∧
      ∀ p i, s.pc p = .inside 7 i → p = 1 := by
  obtain ⟨s, hrun, hpc⟩ : ∃ s : State Nat Nat, system.run handover initial = some s ∧
      s.pc 1 = .inside 7 1 := ⟨_, rfl, rfl⟩
  have hok : ∀ a ∈ handover, a.2 ≠ .lock .flockInterrupted ∧ a.2 ≠ .gc .flockInterrupted := by
    decide
  have hreach : system.Reachable Uninterrupted s :=
    (System.Reachable.init rfl).run (fun a ha _ => hok a ha) hrun
  exact ⟨s, hrun, hreach, hpc, fun p i hp => (lock_exclusion s hreach).1 p 1 7 i 1 hp hpc⟩

/-- A second process is interrupted while it waits, for a lock file and for
    the GC lock. -/
def interrupted : List (Nat × Call Nat) :=
  [(0, .lock (.openFile 7)), (0, .lock .flockNonBlocking), (0, .lock .fstat),
    (1, .lock (.openFile 7)), (1, .lock .flockNonBlocking), (1, .lock .flockInterrupted),
    (1, .lock .fstat),
    (0, .gc .openFile), (0, .gc .flockNonBlocking),
    (1, .gc .openFile), (1, .gc .flockNonBlocking), (1, .gc .flockInterrupted)]

/-- Then both are inside, in both cases. -/
theorem lock_exclusion_fails_interrupted :
    (¬ ∀ s : State Nat Nat, system.Reachable (fun _ _ => True) s →
      ∀ p q path i j, s.pc p = .inside path i → s.pc q = .inside path j → p = q) ∧
    ¬ ∀ s : State Nat Nat, system.Reachable (fun _ _ => True) s →
      ∀ p q, s.gcPc p = .inside → s.gcPc q = .inside → p = q := by
  obtain ⟨s, hrun, hpc0, hpc1, hgc0, hgc1⟩ : ∃ s : State Nat Nat,
      system.run interrupted initial = some s ∧ s.pc 0 = .inside 7 0 ∧ s.pc 1 = .inside 7 0 ∧
        s.gcPc 0 = .inside ∧ s.gcPc 1 = .inside := ⟨_, rfl, rfl, rfl, rfl, rfl⟩
  have hreach : system.Reachable (fun _ _ => True) s :=
    (System.Reachable.init rfl).run (fun _ _ _ => trivial) hrun
  constructor
  · intro h
    exact absurd (h s hreach 0 1 7 0 0 hpc0 hpc1) (by decide)
  · intro h
    exact absurd (h s hreach 0 1 hgc0 hgc1) (by decide)

end PathLocks
end NixStore
