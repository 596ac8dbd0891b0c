/-
  NixStore.Util.MoveFile

  `copyFile` and `moveFile` (`libutil/file-system.cc`) over the trees at the
  two names.

  What the kernel answers is a parameter: any call may fail, and a call that
  succeeds does what POSIX says.  `moveFile` leaves its handler with the guard
  of `Finally`, which aborts when its function throws while an exception is
  already on its way.
-/

import NixStore.Util.MemorySourceAccessor

namespace NixStore
namespace MoveFile

-- ============================================================================
-- copyFile
-- ============================================================================

/-- The calls that `copyFile` makes for a node. -/
inductive CopyCall where
  | symlinkStatus
  /-- `permissions` before the children are copied. -/
  | permissions
  | copy
  | createDirectory
  | openDirectory
  /-- `DirectoryIterator::operator++` with so many entries left. -/
  | increment (left : Nat)
  /-- `setWriteTime` and the `lstat` for it. -/
  | setWriteTime
  /-- `permissions` before the node is removed. -/
  | permissionsAgain
  | remove
deriving DecidableEq, Repr

/-- Which calls fail, by the path below the node that is copied. -/
structure CopyKernel where
  fails : NodePath → CopyCall → Bool
  /-- What a `copy` that fails leaves at its target. -/
  partialCopy : NodePath → Option File

/-- What `copyFile` leaves at its two paths, and whether it throws. -/
structure Copying where
  source : Option File
  target : Option File
  threw : Bool

/-- What the loop over a directory leaves, and whether it throws. -/
structure EntriesCopying where
  source : List (Bytes × File)
  target : List (Bytes × File)
  threw : Bool

/-- The entry of a name, if there is something at it. -/
def entry (name : Bytes) : Option File → List (Bytes × File)
  | none => []
  | some f => [(name, f)]

def isSymlink : File → Bool
  | .symlink _ => true
  | _ => false

/-- Whether `remove` refuses: `ENOTEMPTY`. -/
def isNonEmpty : File → Bool
  | .directory (_ :: _) => true
  | _ => false

/-- The end of `copyFile`. -/
def finishCopy (k : CopyKernel) (andDelete : Bool) (path : NodePath) (source target : File) :
    Copying :=
  if k.fails path .setWriteTime then { source := source, target := target, threw := true }
  else if !andDelete then { source := source, target := target, threw := false }
  else if !isSymlink source && k.fails path .permissionsAgain then
    { source := source, target := target, threw := true }
  else if isNonEmpty source || k.fails path .remove then
    { source := source, target := target, threw := true }
  else { source := none, target := target, threw := false }

/-- `copyFile` for a regular file or a symlink. -/
def copyLeaf (k : CopyKernel) (andDelete : Bool) (path : NodePath) (f : File) : Copying :=
  if k.fails path .symlinkStatus then { source := f, target := none, threw := true }
  else if k.fails path .copy then { source := f, target := k.partialCopy path, threw := true }
  else finishCopy k andDelete path f f

mutual

/-- `copyFile`, without `contents`. -/
def copyFile (k : CopyKernel) (andDelete : Bool) (path : NodePath) : File → Copying
  | .regular executable contents => copyLeaf k andDelete path (.regular executable contents)
  | .symlink target => copyLeaf k andDelete path (.symlink target)
  | .directory entries =>
      if k.fails path .symlinkStatus || (andDelete && k.fails path .permissions) ||
          k.fails path .createDirectory then
        { source := some (.directory entries), target := none, threw := true }
      else if k.fails path .openDirectory then
        { source := some (.directory entries), target := some (.directory []), threw := true }
      else
        match copyEntries k andDelete path entries with
        | ⟨source, target, true⟩ =>
            { source := some (.directory source), target := some (.directory target), threw := true }
        | ⟨source, target, false⟩ =>
            finishCopy k andDelete path (.directory source) (.directory target)

/-- The loop over `DirectoryIterator(from)`.  An increment that fails leaves the
    end iterator, and for that nothing is thrown. -/
def copyEntries (k : CopyKernel) (andDelete : Bool) (path : NodePath) :
    List (Bytes × File) → EntriesCopying
  | [] => { source := [], target := [], threw := false }
  | (name, f) :: rest =>
      match copyFile k andDelete (path ++ [name]) f with
      | ⟨source, target, true⟩ =>
          { source := entry name source ++ rest, target := entry name target, threw := true }
      | ⟨source, target, false⟩ =>
          if k.fails path (.increment rest.length) then
            { source := entry name source ++ rest, target := entry name target, threw := false }
          else
            match copyEntries k andDelete path rest with
            | ⟨source', target', threw⟩ =>
                { source := entry name source ++ source'
                  target := entry name target ++ target'
                  threw := threw }

end

-- ============================================================================
-- moveFile
-- ============================================================================

/-- The errors of `rename`. -/
inductive Errno where
  | EXDEV
  | ENOENT
  | ENOTDIR
  | EISDIR
  | ENOTEMPTY
  /-- Any other. -/
  | other (code : Nat)
deriving DecidableEq, Repr

/-- What is at `newName`. -/
inductive Destination where
  | free
  | taken (f : File)
  /-- `oldName` itself, or another link to its file. -/
  | sameFile

/-- What the kernel answers; a call whose field is `true` fails. -/
structure Kernel where
  /-- The error of the first `rename`, if it is not for the two trees. -/
  rename : Option Errno
  createTempDir : Bool
  removeNew : Bool
  copy : CopyKernel
  renameCopy : Bool
  removeTemp : Bool

/-- What is at the two names, and what the temporary directory holds. -/
structure MoveState where
  old : Option File
  new : Option File
  temp : Option (Option File)

/-- How a call ends. -/
inductive Outcome where
  | returned
  | threw
  /-- `assert(false)` in `~Finally`. -/
  | aborted
deriving DecidableEq, Repr

def isDirectory : File → Bool
  | .directory _ => true
  | _ => false

/-- `rename(2)` of a tree onto what is at the new name. -/
def renameOnto (old : File) : Destination → Option Errno
  | .taken new =>
      if isDirectory old && !isDirectory new then some .ENOTDIR
      else if !isDirectory old && isDirectory new then some .EISDIR
      else if isNonEmpty new then some .ENOTEMPTY
      else none
  | _ => none

/-- The error of the first `rename`. -/
def renameError (k : Kernel) (old : File) (dst : Destination) : Option Errno :=
  match k.rename with
  | some e => some e
  | none => renameOnto old dst

/-- What is at the two names after the first `rename` succeeded: nothing is done
    when both are names of one file. -/
def renamed (old : File) : Destination → MoveState
  | .sameFile => { old := old, new := old, temp := none }
  | _ => { old := none, new := old, temp := none }

/-- What is at the two names in the beginning. -/
def initial (old : File) : Destination → MoveState
  | .free => { old := old, new := none, temp := none }
  | .taken f => { old := old, new := some f, temp := none }
  | .sameFile => { old := old, new := old, temp := none }

/-- The handler is left, by an exception or not: `removeTemp` runs. -/
def leave (k : Kernel) (threw : Bool) (s : MoveState) : Outcome × MoveState :=
  match s.temp with
  | some (some _) => (if threw then .aborted else .threw, s)
  | _ =>
      if k.removeTemp then (if threw then .aborted else .threw, s)
      else (if threw then .threw else .returned, { s with temp := none })

/-- The part of the handler for `EXDEV`: whether it throws. -/
def copyInstead (k : Kernel) (old : File) (s : MoveState) : Bool × MoveState :=
  if k.removeNew || s.new.any isNonEmpty then (true, s)
  else
    match copyFile k.copy true [] old with
    | ⟨source, target, true⟩ => (true, { old := source, new := none, temp := some target })
    | ⟨source, target, false⟩ =>
        if k.renameCopy then (true, { old := source, new := none, temp := some target })
        else (false, { old := source, new := target, temp := some none })

/-- `moveFile`. -/
def moveFile (k : Kernel) (old : File) (dst : Destination) : Outcome × MoveState :=
  match renameError k old dst with
  | none => (.returned, renamed old dst)
  | some e =>
      if k.createTempDir then (.threw, initial old dst)
      else
        let s := { initial old dst with temp := some none }
        if e = .EXDEV then leave k (copyInstead k old s).1 (copyInstead k old s).2
        else leave k false s

-- ============================================================================
-- A copy that deletes
-- ============================================================================

/-- None of the calls fails. -/
def CopyKernel.allows (k : CopyKernel) (path : NodePath) (calls : List CopyCall) : Bool :=
  calls.all fun call => !k.fails path call

/-- No call at the end of a copy fails. -/
def finishes (k : CopyKernel) (path : NodePath) (f : File) : Bool :=
  k.allows path [.setWriteTime, .remove] && (isSymlink f || k.allows path [.permissionsAgain])

mutual

/-- No call of the copy of a node fails. -/
def copies (k : CopyKernel) (path : NodePath) : File → Bool
  | .directory entries =>
      k.allows path [.symlinkStatus, .permissions, .createDirectory] &&
        k.allows path [.openDirectory] && copiesEntries k path entries &&
        finishes k path (.directory entries)
  | f => k.allows path [.symlinkStatus, .copy] && finishes k path f

/-- No call of the loop over these entries fails; behind the last entry an
    increment may. -/
def copiesEntries (k : CopyKernel) (path : NodePath) : List (Bytes × File) → Bool
  | [] => true
  | (name, f) :: rest =>
      copies k (path ++ [name]) f &&
        (rest.isEmpty || k.allows path [.increment rest.length]) &&
        copiesEntries k path rest

end

/-- The copy of a node fails before there is anything at its target. -/
def startFails (k : CopyKernel) (path : NodePath) : File → Bool
  | .directory _ => !k.allows path [.symlinkStatus, .permissions, .createDirectory]
  | _ =>
      !k.allows path [.symlinkStatus] ||
        (!k.allows path [.copy] && (k.partialCopy path).isNone)

section Copies

variable {k : CopyKernel} {path : NodePath}

@[simp] theorem CopyKernel.allows_nil : k.allows path [] = true := rfl

@[simp] theorem CopyKernel.allows_cons (call : CopyCall) (calls : List CopyCall) :
    k.allows path (call :: calls) = (!k.fails path call && k.allows path calls) := rfl

theorem finishCopy_target (andDelete : Bool) (source target : File) :
    (finishCopy k andDelete path source target).target = some target := by
  unfold finishCopy
  repeat' split
  all_goals rfl

/-- Nothing is left below the source and no call fails: the source is removed. -/
theorem finishCopy_ok {source : File} (target : File) (hempty : isNonEmpty source = false)
    (hcalls : finishes k path source = true) :
    finishCopy k true path source target = { source := none, target := target, threw := false } := by
  simp only [finishes, CopyKernel.allows_cons, CopyKernel.allows_nil, Bool.and_true,
    Bool.and_eq_true, Bool.not_eq_true', Bool.or_eq_true] at hcalls
  obtain ⟨⟨htime, hremove⟩, hmode⟩ := hcalls
  have hskip : (!isSymlink source && k.fails path .permissionsAgain) = false := by
    cases hmode with
    | inl hlink => rw [hlink]; rfl
    | inr hmode => rw [hmode, Bool.and_false]
  simp only [finishCopy, htime, hskip, hempty, hremove]
  rfl

/-- Otherwise it throws. -/
theorem finishCopy_threw {source : File} (target : File)
    (hbad : isNonEmpty source = true ∨ finishes k path source = false) :
    (finishCopy k true path source target).threw = true := by
  simp only [finishCopy]
  split
  · rfl
  · next htime =>
    split
    · next hkeep => cases hkeep
    · split
      · rfl
      · next hmode =>
        split
        · rfl
        · next hremove => simp_all [finishes]

/-- A file or a symlink: no call fails. -/
theorem copyLeaf_ok {f : File} (hempty : isNonEmpty f = false)
    (hcalls : (k.allows path [.symlinkStatus, .copy] && finishes k path f) = true) :
    copyLeaf k true path f = { source := none, target := f, threw := false } := by
  simp only [CopyKernel.allows_cons, CopyKernel.allows_nil, Bool.and_true, Bool.and_eq_true,
    Bool.not_eq_true'] at hcalls
  obtain ⟨⟨hstatus, hcopy⟩, hfinish⟩ := hcalls
  rw [copyLeaf, hstatus, hcopy, finishCopy_ok f hempty hfinish]
  rfl

theorem copyLeaf_threw {f : File}
    (hcalls : (k.allows path [.symlinkStatus, .copy] && finishes k path f) = false) :
    (copyLeaf k true path f).threw = true := by
  unfold copyLeaf
  split
  · rfl
  · next hstatus =>
    split
    · rfl
    · next hcopy =>
      apply finishCopy_threw
      right
      simpa [hstatus, hcopy] using hcalls

theorem copyLeaf_target {f : File} :
    (copyLeaf k true path f).target = none ↔
      (!k.allows path [.symlinkStatus] ||
        (!k.allows path [.copy] && (k.partialCopy path).isNone)) = true := by
  unfold copyLeaf
  split
  · next hstatus => simp [hstatus]
  · next hstatus =>
    split
    · next hcopy => simp [hstatus, hcopy]
    · next hcopy => simp [hstatus, hcopy, finishCopy_target]

mutual

/-- No call fails: the node is copied whole, and removed. -/
theorem copyFile_ok (f : File) (path : NodePath) (h : copies k path f = true) :
    copyFile k true path f = { source := none, target := f, threw := false } := by
  match f with
  | .regular executable contents => exact copyLeaf_ok rfl h
  | .symlink target => exact copyLeaf_ok rfl h
  | .directory entries =>
      simp only [copies, Bool.and_eq_true] at h
      obtain ⟨⟨⟨hstart, hopen⟩, hentries⟩, hfinish⟩ := h
      simp only [CopyKernel.allows_cons, CopyKernel.allows_nil, Bool.and_true, Bool.and_eq_true,
        Bool.not_eq_true'] at hstart hopen
      obtain ⟨hstatus, hmode, hcreate⟩ := hstart
      rw [copyFile, hstatus, hmode, hcreate, hopen, copyEntries_ok entries path hentries]
      exact finishCopy_ok _ rfl hfinish

/-- No call fails: the entries are copied whole, and removed. -/
theorem copyEntries_ok (entries : List (Bytes × File)) (path : NodePath)
    (h : copiesEntries k path entries = true) :
    copyEntries k true path entries = { source := [], target := entries, threw := false } := by
  match entries with
  | [] => rfl
  | (name, f) :: rest =>
      simp only [copiesEntries, Bool.and_eq_true, Bool.or_eq_true] at h
      obtain ⟨⟨hf, hincrement⟩, hrest⟩ := h
      rw [copyEntries, copyFile_ok f (path ++ [name]) hf]
      cases hincrement with
      | inl hlast =>
          rw [List.isEmpty_iff.mp hlast]
          simp only [copyEntries]
          split <;> rfl
      | inr hincrement =>
          simp only [CopyKernel.allows_cons, CopyKernel.allows_nil, Bool.and_true,
            Bool.not_eq_true'] at hincrement
          rw [hincrement, copyEntries_ok rest path hrest]
          rfl

end

mutual

/-- Some call fails: the copy throws. -/
theorem copyFile_threw (f : File) (path : NodePath) (h : copies k path f = false) :
    (copyFile k true path f).threw = true := by
  match f with
  | .regular executable contents => exact copyLeaf_threw h
  | .symlink target => exact copyLeaf_threw h
  | .directory entries =>
      rw [copyFile]
      split
      · rfl
      · next hstart =>
        split
        · rfl
        · next hopen =>
          split
          · rfl
          · next source target hcopied =>
            apply finishCopy_threw
            by_cases hentries : copiesEntries k path entries = true
            · right
              simp_all [copies, finishes, isSymlink]
            · left
              have hleft := copyEntries_threw entries path (Bool.eq_false_iff.mpr hentries)
              rw [hcopied] at hleft
              cases source with
              | nil => simp at hleft
              | cons e source => rfl

/-- Some call fails: the loop throws, or it ends early and leaves entries. -/
theorem copyEntries_threw (entries : List (Bytes × File)) (path : NodePath)
    (h : copiesEntries k path entries = false) :
    (copyEntries k true path entries).threw = true ∨
      (copyEntries k true path entries).source ≠ [] := by
  match entries with
  | [] => cases h
  | (name, f) :: rest =>
      rw [copyEntries]
      split
      · exact .inl rfl
      · next source target hcopied =>
        have hf : copies k (path ++ [name]) f = true := by
          by_contra hf
          have hthrew := copyFile_threw f (path ++ [name]) (Bool.eq_false_iff.mpr hf)
          rw [hcopied] at hthrew
          cases hthrew
        rw [copyFile_ok f (path ++ [name]) hf] at hcopied
        cases hcopied
        split
        · next hincrement =>
          right
          cases rest with
          | nil => simp [copiesEntries, hf] at h
          | cons e rest => simp [entry]
        · next hincrement =>
          have hrest : copiesEntries k path rest = false := by
            simpa [copiesEntries, hf, hincrement] using h
          have hleft := copyEntries_threw rest path hrest
          simpa [entry] using hleft

end

/-- Nothing is at the target of a copy only if its beginning failed. -/
theorem copyFile_target (f : File) :
    (copyFile k true path f).target = none ↔ startFails k path f = true := by
  cases f with
  | regular executable contents => exact copyLeaf_target
  | symlink target => exact copyLeaf_target
  | directory entries =>
      rw [copyFile, startFails]
      split
      · next hstart => simpa [or_assoc] using hstart
      · next hstart =>
        split
        · next hopen => simp_all
        · next hopen =>
          split
          · simp_all
          · rw [finishCopy_target]
            simp_all

end Copies

-- ============================================================================
-- Moving or reporting
-- ============================================================================

/-- It returns only when the new name holds the tree and the old one is gone,
    and else it throws. -/
def Moves (old : File) (r : Outcome × MoveState) : Prop :=
  (r.1 = .returned → r.2.new = some old ∧ r.2.old = none) ∧ r.1 ≠ .aborted

/-- The handler for `EXDEV` fails before it has put anything into the temporary
    directory. -/
def failsEarly (k : Kernel) (old : File) (dst : Destination) : Bool :=
  k.removeNew || (initial old dst).new.any isNonEmpty || startFails k.copy [] old

/-- When the file is moved or an exception says that it is not. -/
def MovesWhen (k : Kernel) (old : File) (dst : Destination) : Prop :=
  match renameError k old dst with
  | none => dst ≠ .sameFile
  | some e =>
      k.createTempDir = true ∨
        if e ≠ .EXDEV then k.removeTemp = true
        else if failsEarly k old dst then k.removeTemp = false
        else copies k.copy [] old = true ∧ k.renameCopy = false

section Moving

variable {k : Kernel} {old : File} {s : MoveState}

/-- The guard throws or it does not, when there is no exception yet. -/
theorem moves_leave_false : Moves old (leave k false s) ↔
    ((∃ f, s.temp = some (some f)) ∨ k.removeTemp = true ∨ (s.new = some old ∧ s.old = none)) := by
  unfold leave
  split
  · next f htemp => simp [Moves, htemp]
  · next htemp =>
    have hnone : ¬ ∃ f, s.temp = some (some f) := fun ⟨f, hf⟩ => htemp f hf
    cases k.removeTemp <;> simp [Moves, hnone]

/-- During an exception the guard has to succeed. -/
theorem moves_leave_true : Moves old (leave k true s) ↔
    ((∀ f, s.temp ≠ some (some f)) ∧ k.removeTemp = false) := by
  unfold leave
  split
  · next f htemp => simp [Moves, htemp]
  · next htemp =>
    have hnone : ∀ f, s.temp ≠ some (some f) := fun f hf => htemp f hf
    cases k.removeTemp
    · simpa [Moves] using hnone
    · simp [Moves]

/-- The handler for `EXDEV` ends the move as a whole, if nothing fails in it. -/
theorem moves_copyInstead {dst : Destination} :
    Moves old (leave k (copyInstead k old { initial old dst with temp := some none }).1
        (copyInstead k old { initial old dst with temp := some none }).2) ↔
      if failsEarly k old dst then k.removeTemp = false
      else copies k.copy [] old = true ∧ k.renameCopy = false := by
  have htarget := @copyFile_target k.copy [] old
  by_cases hnew : (k.removeNew || (initial old dst).new.any isNonEmpty) = true
  · rw [copyInstead, if_pos hnew, failsEarly, hnew, Bool.true_or, if_pos rfl, moves_leave_true]
    simp
  · rw [copyInstead, if_neg hnew, failsEarly, Bool.eq_false_iff.mpr hnew, Bool.false_or]
    by_cases hcopies : copies k.copy [] old = true
    · -- the copy is whole, and so is the move
      rw [copyFile_ok old [] hcopies] at htarget ⊢
      have hstart : ¬ startFails k.copy [] old = true := fun h => nomatch htarget.mpr h
      simp only [if_neg hstart]
      cases hrename : k.renameCopy
      · rw [if_neg Bool.false_ne_true, moves_leave_false]
        simp [hcopies]
      · rw [if_pos rfl, moves_leave_true]
        simp
    · have hthrew := copyFile_threw old [] (Bool.eq_false_iff.mpr hcopies)
      split
      · next source target hcopied =>
        rw [hcopied] at htarget
        rw [moves_leave_true]
        cases target with
        | none => simp [htarget.mp rfl]
        | some f =>
            have hstart : ¬ startFails k.copy [] old = true := fun h => nomatch htarget.mpr h
            simp [hstart, hcopies]
      · next source target hcopied =>
        rw [hcopied] at hthrew
        cases hthrew

end Moving

/-- `moveFile` moves or reports exactly under the condition. -/
theorem moveFile_moves_iff (k : Kernel) (old : File) (dst : Destination) :
    Moves old (moveFile k old dst) ↔ MovesWhen k old dst := by
  unfold moveFile MovesWhen
  split
  · cases dst <;> simp [Moves, renamed]
  · next e herror =>
    by_cases htemp : k.createTempDir = true
    · simp [htemp, Moves]
    · rw [if_neg htemp]
      by_cases hcode : e = .EXDEV
      · rw [if_pos hcode, moves_copyInstead]
        simp [htemp, hcode]
      · rw [if_neg hcode, moves_leave_false]
        cases dst <;> simp [htemp, hcode, initial]

namespace Sample

/-- A kernel that refuses the `rename`, with `EACCES`, and nothing else. -/
def denied : Kernel where
  rename := some (.other 13)
  createTempDir := false
  removeNew := false
  copy := { fails := fun _ _ => false, partialCopy := fun _ => none }
  renameCopy := false
  removeTemp := false

end Sample

/-- `moveFile` returns although nothing has been moved. -/
theorem moveFile_denied :
    ¬ Moves (.regular false (ascii "foo"))
      (moveFile Sample.denied (.regular false (ascii "foo")) .free) :=
  fun h => nomatch (h.1 rfl).2

end MoveFile
end NixStore
