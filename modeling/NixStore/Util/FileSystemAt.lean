/-
  NixStore.Util.FileSystemAt

  `openFileEnsureBeneathNoSymlinks` (`libutil/unix/file-system-at.cc`): open a
  path below a directory descriptor without following a symbolic link, with
  `openat2` where the kernel has it and component by component elsewhere.

  Other processes may change the file system between two system calls, so each
  call sees it as it is at its own instant; what a call answers besides, an
  error that has nothing to do with the names on the way, is the environment's.
-/

import NixStore.Lib.Directories
import NixStore.Util.ResolveSymlinks

namespace NixStore
namespace FileSystemAt

/-- What is no directory and no symbolic link. -/
inductive Leaf where
  | regular (executable : Bool) (contents : Bytes)
  /-- A device, a socket or a pipe. -/
  | special (type : SourceAccessor.NodeType)

/-- The file system at one instant. -/
abbrev Files := Inodes Bytes Bytes Leaf

/-- `errno`. -/
inductive Errno where
  | noent
  | notdir
  | loop
  | exist
  | isdir
  | other (code : Nat)
deriving DecidableEq

/-- `ENAMETOOLONG`. -/
def Errno.nametoolong : Errno := .other 36

/-- `PATH_MAX`: the room for a path, with the byte that ends it, that a system
    call reads. -/
def pathMax : Nat := 4096

/-- `CanonPath::rel`. -/
def rel (path : NodePath) : Bytes := (renderPath path).drop 1

/-- Whether a system call takes a path. -/
def Short (path : NodePath) : Prop := (rel path).length < pathMax

instance (path : NodePath) : Decidable (Short path) := inferInstanceAs (Decidable (_ < _))

theorem length_rel (path : NodePath) :
    (rel path).length = (path.map fun c => c.length + 1).sum - 1 := by
  unfold rel renderPath
  split
  · next h =>
      subst h
      rfl
  · rw [List.length_drop, List.length_flatMap]
    rfl

theorem Short.append_left {p q : NodePath} (h : Short (p ++ q)) : Short p := by
  unfold Short at *
  rw [length_rel, List.map_append, List.sum_append] at h
  rw [length_rel]
  omega

theorem Short.append_right {p q : NodePath} (h : Short (p ++ q)) : Short q := by
  unfold Short at *
  rw [length_rel, List.map_append, List.sum_append] at h
  rw [length_rel]
  omega

theorem Short.dropLast {path : NodePath} (h : Short path) : Short path.dropLast := by
  by_cases hnil : path = []
  · rwa [hnil] at h ⊢
  · rw [← List.dropLast_append_getLast hnil] at h
    exact h.append_left

/-- The bits of `flags` that decide what is opened. -/
structure OpenFlags where
  /-- `O_PATH`. -/
  path : Bool
  /-- `O_DIRECTORY`. -/
  directory : Bool
  /-- `O_CREAT`. -/
  creat : Bool
  /-- `O_EXCL`. -/
  excl : Bool
  /-- `O_NOFOLLOW`. -/
  noFollow : Bool
deriving DecidableEq

/-- `O_CREAT` does not go together with `O_PATH` or `O_DIRECTORY`, and
    `O_NOFOLLOW` is not the caller's. -/
structure OpenFlags.Valid (flags : OpenFlags) : Prop where
  noFollow : flags.noFollow = false
  path : flags.creat = true → flags.path = false
  directory : flags.creat = true → flags.directory = false

/-- What surrounds a run of system calls. -/
structure World where
  /-- The file system at each call. -/
  fs : History Bytes Bytes Leaf
  /-- The calls that fail for a reason of their own. -/
  fails : Nat → Option Nat
  /-- The inode that a call would create. -/
  fresh : Nat → Nat

-- ============================================================================
-- System calls
-- ============================================================================

/-- What a name in a directory stands for. -/
def nameAt (fs : Files) (dir : Nat) (name : Bytes) : Except Errno Nat :=
  if (fs dir).isDirectory then
    match (fs dir).child name with
    | some i => .ok i
    | none => .error .noent
  else .error .notdir

theorem nameAt_eq_ok {fs : Files} {dir i : Nat} {name : Bytes} :
    nameAt fs dir name = .ok i ↔ (fs dir).child name = some i := by
  unfold nameAt
  split
  · cases hchild : (fs dir).child name <;> simp
  · next hdir =>
      refine iff_of_false (fun h => by cases h) fun h => ?_
      exact hdir (Inode.isDirectory_of_child h)

theorem nameAt_eq_error {fs : Files} {dir : Nat} {name : Bytes} {e : Errno}
    (h : nameAt fs dir name = .error e) : e = .noent ∨ e = .notdir := by
  unfold nameAt at h
  split at h
  · split at h <;> cases h
    exact Or.inl rfl
  · cases h
    exact Or.inr rfl

/-- Open the last component.  A symbolic link is not followed, because of
    `O_NOFOLLOW` or of `RESOLVE_NO_SYMLINKS`. -/
def openLast (fs : Files) (fresh : Nat) (flags : OpenFlags) (dir : Nat) (name : Bytes) :
    Except Errno Nat :=
  match nameAt fs dir name with
  | .error .noent => if flags.creat then .ok fresh else .error .noent
  | .error e => .error e
  | .ok i =>
      if flags.creat ∧ flags.excl then .error .exist
      else
        match fs i with
        | .symlink _ =>
            if flags.noFollow ∧ flags.directory then .error .notdir
            else if flags.noFollow ∧ flags.path then .ok i
            else .error .loop
        | .directory _ => if flags.creat then .error .isdir else .ok i
        | .object _ => if flags.directory then .error .notdir else .ok i

/-- `openat(2)` of one component, with `O_NOFOLLOW`. -/
def World.openat (w : World) (t : Nat) (dir : Nat) (component : Bytes) (flags : OpenFlags) :
    Except Errno Nat :=
  match w.fails t with
  | some code => .error (.other code)
  | none => openLast (w.fs t) (w.fresh t) flags dir component

/-- The directory that leads to the last component for `openat2`. -/
def walkNoSymlinks (fs : Files) : Nat → NodePath → Except Errno Nat
  | dir, [] => .ok dir
  | dir, name :: rest =>
      match nameAt fs dir name with
      | .error e => .error e
      | .ok i =>
          match fs i with
          | .directory _ => walkNoSymlinks fs i rest
          | .symlink _ => .error .loop
          | .object _ => .error .notdir

/-- `openat2(2)` with `RESOLVE_BENEATH | RESOLVE_NO_SYMLINKS`. -/
def World.openat2 (w : World) (t : Nat) (dirFd : Nat) (path : NodePath) (flags : OpenFlags) :
    Except Errno Nat :=
  if Short path then
    match w.fails t with
    | some code => .error (.other code)
    | none => do
        let dir ← walkNoSymlinks (w.fs t) dirFd path.dropLast
        openLast (w.fs t) (w.fresh t) flags dir (path.getLast?.getD [])
  else .error Errno.nametoolong

/-- `maybeFstatat`: `fstatat(2)` with `AT_SYMLINK_NOFOLLOW`; an error that does
    not say that the name is missing is thrown. -/
def World.maybeFstatat (w : World) (t : Nat) (dir : Nat) (name : Bytes) :
    Except Nat (Option (Inode Bytes Bytes Leaf)) :=
  match w.fails t with
  | some code => .error code
  | none =>
      match nameAt (w.fs t) dir name with
      | .ok i => .ok (some (w.fs t i))
      | .error _ => .ok none

-- ============================================================================
-- openFileEnsureBeneathNoSymlinks
-- ============================================================================

/-- How `openFileEnsureBeneathNoSymlinks` ends. -/
inductive Opened where
  | fd (ino : Nat)
  /-- An invalid descriptor, and `errno`. -/
  | failed (errno : Errno)
  /-- Throws `SymlinkNotAllowed`. -/
  | symlinkNotAllowed (path : NodePath)
  /-- Throws `SysError`. -/
  | sysError (code : Nat)
deriving DecidableEq

/-- The local variables of `openFileEnsureBeneathNoSymlinksIterative`. -/
structure Walk where
  parentFd : Option Nat
  currentRelPath : NodePath
  /-- The descriptors that `dirFdCallback` has been given, and their paths. -/
  callbacks : List (Nat × NodePath)
  /-- The number of the next system call. -/
  time : Nat

/-- `getParentFd`. -/
def Walk.getParentFd (dirFd : Nat) (st : Walk) : Nat := st.parentFd.getD dirFd

/-- `O_DIRECTORY | O_NOFOLLOW | O_CLOEXEC | O_PATH`. -/
def innerFlags : OpenFlags where
  path := true
  directory := true
  creat := false
  excl := false
  noFollow := true

/-- A component could not be opened as it should: see whether it is a symbolic
    link. -/
def diagnose (w : World) (dirFd : Nat) (st : Walk) (component : Bytes) : Errno → Opened
  | .notdir =>
      match w.maybeFstatat (st.time + 1) (st.getParentFd dirFd) component with
      | .error code => .sysError code
      | .ok (some (.symlink _)) => .symlinkNotAllowed (st.currentRelPath ++ [component])
      | .ok _ => .failed .notdir
  | .loop => .symlinkNotAllowed (st.currentRelPath ++ [component])
  | e => .failed e

/-- `openFileEnsureBeneathNoSymlinksIterative`, from some component on. -/
def openIterative (w : World) (dirFd : Nat) (flags : OpenFlags) : NodePath → Walk → Opened × Walk
  | [], st => (.failed (.other 0), st)
  | [last], st =>
      match w.openat st.time (st.getParentFd dirFd) last { flags with noFollow := true } with
      | .ok i => (.fd i, { st with time := st.time + 1 })
      | .error e => (diagnose w dirFd st last e, { st with time := st.time + 2 })
  | component :: rest, st =>
      match w.openat st.time (st.getParentFd dirFd) component innerFlags with
      | .error e => (diagnose w dirFd st component e, { st with time := st.time + 2 })
      | .ok parentFd2 =>
          openIterative w dirFd flags rest {
            parentFd := some parentFd2
            currentRelPath := st.currentRelPath ++ [component]
            callbacks := st.callbacks ++ (st.parentFd.map fun fd => (fd, st.currentRelPath)).toList
            time := st.time + 1 }

/-- Before the first component. -/
def Walk.start (t : Nat) : Walk where
  parentFd := none
  currentRelPath := []
  callbacks := []
  time := t

/-- `openFileEnsureBeneathNoSymlinks`, where the kernel may have `openat2`. -/
def openFileEnsureBeneathNoSymlinks (w : World) (haveOpenat2 : Bool) (t : Nat) (dirFd : Nat)
    (path : NodePath) (flags : OpenFlags) : Opened × Walk :=
  if haveOpenat2 then
    let flagsAdj :=
      if flags.path ∧ ¬ flags.directory then { flags with noFollow := true } else flags
    match w.openat2 t dirFd path flagsAdj with
    | .ok i => (.fd i, { Walk.start t with time := t + 1 })
    | .error .loop => (.symlinkNotAllowed path, { Walk.start t with time := t + 1 })
    | .error e => (.failed e, { Walk.start t with time := t + 1 })
  else openIterative w dirFd flags path (Walk.start t)

end FileSystemAt
end NixStore
