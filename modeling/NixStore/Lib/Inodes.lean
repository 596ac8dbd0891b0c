/-
  NixStore.Lib.Inodes

  A file system as a reader and `link(2)` see it: names stand for directories
  or for inodes, and several names can stand for one inode.

  The names are an arbitrary type, so the hierarchy of directories is up to the
  user of the library; so is what an inode holds.  `link`, `rename` and
  `unlink` change names only.  A rename between two names of one inode does
  nothing and succeeds.
-/

import Mathlib.Logic.Function.Basic

namespace NixStore

/-- What a name stands for. -/
inductive Entry where
  | directory
  | object (ino : Nat)
deriving DecidableEq

/-- What is read under a name. -/
inductive Node (α : Type) where
  | directory
  | object (contents : α)
deriving DecidableEq

/-- Names and inodes.  The inodes from `next` on have no name. -/
structure Fs (κ α : Type) where
  names : κ → Option Entry
  inodes : Nat → α
  next : Nat
  allocated : ∀ k i, names k = some (.object i) → i < next

namespace Fs

variable {κ α : Type}

-- ============================================================================
-- System calls
-- ============================================================================

/-- What is read under a name. -/
def read (fs : Fs κ α) (k : κ) : Option (Node α) :=
  match fs.names k with
  | none => none
  | some .directory => some .directory
  | some (.object i) => some (.object (fs.inodes i))

/-- Change what an inode holds. -/
def modify (fs : Fs κ α) (ino : Nat) (f : α → α) : Fs κ α :=
  { fs with inodes := Function.update fs.inodes ino (f (fs.inodes ino)) }

variable [DecidableEq κ]

/-- Set or clear a name. -/
def setName (fs : Fs κ α) (k : κ) (e : Option Entry)
    (he : ∀ i, e = some (.object i) → i < fs.next) : Fs κ α where
  names := Function.update fs.names k e
  inodes := fs.inodes
  next := fs.next
  allocated := by
    intro k' i h
    rw [Function.update_apply] at h
    split at h
    · exact he i h
    · exact fs.allocated k' i h

/-- A new directory. -/
def addDirectory (fs : Fs κ α) (k : κ) : Fs κ α := fs.setName k (some .directory) nofun

/-- A new inode. -/
def addObject (fs : Fs κ α) (k : κ) (a : α) : Fs κ α where
  names := Function.update fs.names k (some (.object fs.next))
  inodes := Function.update fs.inodes fs.next a
  next := fs.next + 1
  allocated := by
    intro k' i h
    rw [Function.update_apply] at h
    split at h
    · cases h
      exact Nat.lt_succ_self _
    · exact Nat.lt_succ_of_lt (fs.allocated k' i h)

/-- A second name for what a name stands for. -/
def copyName (fs : Fs κ α) (src dst : κ) : Fs κ α :=
  fs.setName dst (fs.names src) (fs.allocated src)

/-- `unlink(2)` of a name that may be missing. -/
def unlink (fs : Fs κ α) (k : κ) : Fs κ α := fs.setName k none nofun

/-- `mkdir(2)`. -/
def mkdir (fs : Fs κ α) (k : κ) : Option (Fs κ α) :=
  if fs.names k = none then some (fs.addDirectory k) else none

/-- `open(2)` with `O_CREAT | O_EXCL`, and `symlink(2)`. -/
def create (fs : Fs κ α) (k : κ) (a : α) : Option (Fs κ α) :=
  if fs.names k = none then some (fs.addObject k a) else none

/-- Whether a name stands for an inode. -/
def isObject (fs : Fs κ α) (k : κ) : Bool :=
  match fs.names k with
  | some (.object _) => true
  | _ => false

/-- `link(2)`. -/
def link (fs : Fs κ α) (src dst : κ) : Option (Fs κ α) :=
  if fs.isObject src = true ∧ fs.names dst = none then some (fs.copyName src dst) else none

/-- `rename(2)` of something that is not a directory. -/
def rename (fs : Fs κ α) (src dst : κ) : Option (Fs κ α) :=
  if fs.isObject src = true ∧ fs.names dst ≠ some .directory then
    some (if fs.names dst = fs.names src then fs else (fs.copyName src dst).unlink src)
  else none

-- ============================================================================
-- What they do to names and inodes
-- ============================================================================

omit [DecidableEq κ] in
@[simp] theorem names_modify (fs : Fs κ α) (ino : Nat) (f : α → α) :
    (fs.modify ino f).names = fs.names := rfl

omit [DecidableEq κ] in
@[simp] theorem inodes_modify (fs : Fs κ α) (ino : Nat) (f : α → α) (i : Nat) :
    (fs.modify ino f).inodes i = if i = ino then f (fs.inodes ino) else fs.inodes i := by
  simp only [modify, Function.update_apply]

omit [DecidableEq κ] in
@[simp] theorem next_modify (fs : Fs κ α) (ino : Nat) (f : α → α) :
    (fs.modify ino f).next = fs.next := rfl

@[simp] theorem names_addDirectory (fs : Fs κ α) (k k' : κ) :
    (fs.addDirectory k).names k' = if k' = k then some .directory else fs.names k' :=
  Function.update_apply _ _ _ _

@[simp] theorem inodes_addDirectory (fs : Fs κ α) (k : κ) :
    (fs.addDirectory k).inodes = fs.inodes := rfl

@[simp] theorem next_addDirectory (fs : Fs κ α) (k : κ) : (fs.addDirectory k).next = fs.next := rfl

@[simp] theorem names_addObject (fs : Fs κ α) (k : κ) (a : α) (k' : κ) :
    (fs.addObject k a).names k' = if k' = k then some (.object fs.next) else fs.names k' :=
  Function.update_apply _ _ _ _

@[simp] theorem inodes_addObject (fs : Fs κ α) (k : κ) (a : α) (i : Nat) :
    (fs.addObject k a).inodes i = if i = fs.next then a else fs.inodes i :=
  Function.update_apply _ _ _ _

@[simp] theorem next_addObject (fs : Fs κ α) (k : κ) (a : α) :
    (fs.addObject k a).next = fs.next + 1 := rfl

@[simp] theorem names_copyName (fs : Fs κ α) (src dst k : κ) :
    (fs.copyName src dst).names k = if k = dst then fs.names src else fs.names k :=
  Function.update_apply _ _ _ _

@[simp] theorem inodes_copyName (fs : Fs κ α) (src dst : κ) :
    (fs.copyName src dst).inodes = fs.inodes := rfl

@[simp] theorem next_copyName (fs : Fs κ α) (src dst : κ) :
    (fs.copyName src dst).next = fs.next := rfl

@[simp] theorem names_unlink (fs : Fs κ α) (k k' : κ) :
    (fs.unlink k).names k' = if k' = k then none else fs.names k' :=
  Function.update_apply _ _ _ _

@[simp] theorem inodes_unlink (fs : Fs κ α) (k : κ) : (fs.unlink k).inodes = fs.inodes := rfl

@[simp] theorem next_unlink (fs : Fs κ α) (k : κ) : (fs.unlink k).next = fs.next := rfl

omit [DecidableEq κ] in
theorem isObject_iff {fs : Fs κ α} {k : κ} :
    fs.isObject k = true ↔ ∃ i, fs.names k = some (.object i) := by
  unfold isObject
  split
  · next i h => exact iff_of_true rfl ⟨i, h⟩
  · next hne =>
      refine iff_of_false Bool.false_ne_true ?_
      rintro ⟨i, h⟩
      exact hne i h

omit [DecidableEq κ] in
theorem read_object {fs : Fs κ α} {k : κ} {i : Nat} (h : fs.names k = some (.object i)) :
    fs.read k = some (.object (fs.inodes i)) := by
  rw [read, h]

/-- A link is a second name for an inode, where there was none. -/
theorem link_eq_some {fs fs' : Fs κ α} {src dst : κ} (h : fs.link src dst = some fs') :
    (∃ i, fs.names src = some (.object i)) ∧ fs.names dst = none ∧ fs' = fs.copyName src dst := by
  unfold link at h
  split at h
  · next hmay => exact ⟨isObject_iff.mp hmay.1, hmay.2, (Option.some.inj h).symm⟩
  · cases h

/-- A rename moves the name of an inode, unless both names are names of it. -/
theorem rename_eq_some {fs fs' : Fs κ α} {src dst : κ} (h : fs.rename src dst = some fs') :
    (∃ i, fs.names src = some (.object i)) ∧
    (fs' = fs ∨ fs' = (fs.copyName src dst).unlink src) := by
  unfold rename at h
  split at h
  · next hmay =>
      refine ⟨isObject_iff.mp hmay.1, ?_⟩
      cases h
      split
      · exact .inl rfl
      · exact .inr rfl
  · cases h

end Fs

end NixStore
