/-
  NixStore.Util.DeletePath

  `deletePath` (`libutil/unix/file-system.cc`): removes a file or a whole
  directory, and counts the bytes that this is likely to free.  The mode of a
  directory is changed by `fchmodatTryNoFollow` (`unix/file-system-at.cc`), in
  one of three ways.

  Every system call sees the file system as others have left it.  The changes
  that the function makes itself are recorded, so that it can be said where they
  were made.
-/

import NixStore.Util.FileSystemAt

namespace NixStore
namespace DeletePath

open FileSystemAt

/-- The file system. -/
structure Tree where
  files : Files
  /-- `st_nlink`, of anything but directories. -/
  nlink : Nat → Nat
  /-- Whether the owner may read, write and search a directory. -/
  accessible : Nat → Bool

/-- A change that `deletePath` makes. -/
inductive Change where
  /-- An entry of a directory is removed. -/
  | unlink (dir : Nat) (name : Bytes) (ino : Nat)
  /-- A directory is made accessible. -/
  | chmod (ino : Nat)

def Tree.apply (t : Tree) : Change → Tree
  | .unlink dir name ino =>
      { t with
        files := Function.update t.files dir ((t.files dir).without name)
        nlink := Function.update t.nlink ino (t.nlink ino - 1) }
  | .chmod ino => { t with accessible := Function.update t.accessible ino true }

/-- What is thrown. -/
structure DeleteError where
  errno : Errno
  msg : String
deriving DecidableEq

/-- What surrounds a run. -/
structure Surroundings where
  /-- What others have made of the file system when a call sees it. -/
  others : Nat → Tree → Tree
  /-- The calls that fail for a reason of their own. -/
  fails : Nat → Option Nat
  /-- The names that `readdir` returns for a directory from the first call on,
      and the error that it ends with. -/
  readdir : Nat → Tree → Nat → List Bytes × Option Nat
  /-- Whether the kernel has `fchmodat2`. -/
  haveFchmodat2 : Bool
  /-- Whether there is a `/proc`. -/
  haveProc : Bool
  /-- What a symbolic link in a directory leads to. -/
  follow : Tree → Nat → Bytes → Except Errno Nat

/-- The state of a run: the file system, and the variables of `deletePath`. -/
structure Deleting where
  tree : Tree
  bytesFreed : UInt64
  /-- The first exception that has been put off. -/
  ex : Option DeleteError
  /-- The number of the next system call. -/
  time : Nat
  /-- The changes so far.  No program reads this. -/
  changes : List Change

abbrev DeleteM := EStateM DeleteError Deleting

-- ============================================================================
-- System calls
-- ============================================================================

/-- `ENOTEMPTY`. -/
def Errno.notempty : Errno := .other 39

/-- `EOPNOTSUPP`. -/
def Errno.opnotsupp : Errno := .other 95

/-- What `_deletePath` reads of a `PosixStat`. -/
structure Stat where
  directory : Bool
  /-- Whether none of the bits of `PERM_MASK` is missing. -/
  accessible : Bool
  nlink : Nat
  size : Nat

/-- `st_size`. -/
def sizeOf : Inode Bytes Bytes Leaf → Nat
  | .symlink target => target.length
  | .object (.regular _ contents) => contents.length
  | _ => 0

/-- `fstatat(2)` with `AT_SYMLINK_NOFOLLOW`. -/
def fstatat (dir : Nat) (name : Bytes) (t : Tree) : Except Errno Stat :=
  (nameAt t.files dir name).map fun i =>
    { directory := (t.files i).isDirectory
      accessible := t.accessible i
      nlink := t.nlink i
      size := sizeOf (t.files i) }

/-- `fchmodat2(2)` with `AT_SYMLINK_NOFOLLOW`. -/
def fchmodat2 (dir : Nat) (name : Bytes) (t : Tree) : Except Errno Change :=
  match nameAt t.files dir name with
  | .error e => .error e
  | .ok i => if (t.files i).isSymlink then .error Errno.opnotsupp else .ok (.chmod i)

/-- `openat(2)` with `O_PATH | O_NOFOLLOW`. -/
def openPathAt (dir : Nat) (name : Bytes) (t : Tree) : Except Errno Nat := nameAt t.files dir name

/-- `S_ISLNK` of what `fstat(2)` says of a descriptor. -/
def isSymlinkFd (fd : Nat) (t : Tree) : Except Errno Bool := .ok (t.files fd).isSymlink

/-- `chmod(2)` of what a descriptor stands for, by its name in `/proc/self/fd`. -/
def chmodFd (fd : Nat) (_ : Tree) : Except Errno Change := .ok (.chmod fd)

/-- `fchmodat(2)` without a flag, which follows a symbolic link. -/
def fchmodat (env : Surroundings) (dir : Nat) (name : Bytes) (t : Tree) : Except Errno Change :=
  match nameAt t.files dir name with
  | .error e => .error e
  | .ok i =>
      match t.files i with
      | .symlink target => (env.follow t dir target).map .chmod
      | _ => .ok (.chmod i)

/-- `openat(2)` with `O_RDONLY | O_DIRECTORY | O_NOFOLLOW`. -/
def openDirectoryAt (dir : Nat) (name : Bytes) (t : Tree) : Except Errno Nat :=
  match nameAt t.files dir name with
  | .error e => .error e
  | .ok i => if (t.files i).isDirectory then .ok i else .error .notdir

/-- `unlinkat(2)`. -/
def unlinkat (dir : Nat) (name : Bytes) (removeDir : Bool) (t : Tree) : Except Errno Change :=
  match nameAt t.files dir name with
  | .error e => .error e
  | .ok i =>
      match t.files i with
      | .directory entries =>
          if removeDir then
            if entries = [] then .ok (.unlink dir name i) else .error Errno.notempty
          else .error .isdir
      | _ => if removeDir then .error .notdir else .ok (.unlink dir name i)

variable (env : Surroundings)

/-- The others have their turn. -/
def Deleting.turn (s : Deleting) : Deleting :=
  { s with tree := env.others s.time s.tree, time := s.time + 1 }

/-- A system call that reads. -/
def look {α : Type} (f : Tree → Except Errno α) : DeleteM (Except Errno α) := fun s =>
  match env.fails s.time with
  | some code => .ok (.error (.other code)) (s.turn env)
  | none => .ok (f (s.turn env).tree) (s.turn env)

/-- A change. -/
def Deleting.record (s : Deleting) (c : Change) : Deleting :=
  { s with tree := s.tree.apply c, changes := s.changes ++ [c] }

/-- A system call that changes something. -/
def change (f : Tree → Except Errno Change) : DeleteM (Except Errno Unit) := fun s =>
  match env.fails s.time with
  | some code => .ok (.error (.other code)) (s.turn env)
  | none =>
      match f (s.turn env).tree with
      | .error e => .ok (.error e) (s.turn env)
      | .ok c => .ok (.ok ()) ((s.turn env).record c)

/-- The names in a directory. -/
def readdir (fd : Nat) : DeleteM (List Bytes × Option Nat) := fun s =>
  .ok (env.readdir s.time (s.turn env).tree fd) (s.turn env)

-- ============================================================================
-- deletePath
-- ============================================================================

/-- A `SysError` that names a path. -/
def sysError (errno : Errno) (what : String) (path : NodePath) : DeleteError where
  errno := errno
  msg := s!"{what} {pathFmt (renderPath path)}"

/-- `path.filename()`. -/
def filename (path : NodePath) : Bytes := path.getLast?.getD []

/-- The bytes that a file is likely to free. -/
def likelyFreed (st : Stat) : UInt64 :=
  if st.directory then 0
  else if st.nlink = 1 ∨ st.nlink = 2 then UInt64.ofNat st.size
  else 0

/-- The removal of the name itself: an exception is put off. -/
def unlinkLast (parentfd : Nat) (path : NodePath) (removeDir : Bool) : DeleteM Unit := do
  match ← change env (unlinkat parentfd (filename path) removeDir) with
  | .ok () => pure ()
  | .error .noent => pure ()
  | .error e => modify fun s =>
      { s with ex := s.ex.or (some (sysError e "cannot unlink" path)) }

/-- The change of a mode, or an exception. -/
def chmodOrThrow (f : Tree → Except Errno Change) (msg : String) : DeleteM Unit := do
  match ← change env f with
  | .ok () => pure ()
  | .error errno => throw { errno, msg }

/-- `unix::fchmodatTryNoFollow`.  The calls that find out what the kernel has not
    got change nothing, and are left out. -/
def fchmodatTryNoFollow (dirFd : Nat) (path : NodePath) : DeleteM Unit := do
  let shown := pathFmt (renderPath path)
  if env.haveFchmodat2 then
    chmodOrThrow env (fchmodat2 dirFd (filename path)) s!"fchmodat2 {shown}"
  else
    match ← look env (openPathAt dirFd (filename path)) with
    | .error errno =>
        throw { errno, msg :=
          s!"opening {shown} to get an O_PATH file descriptor (fchmodat2 is unsupported)" }
    | .ok pathFd => do
        match ← look env (isSymlinkFd pathFd) with
        | .error e => throw (sysError e "getting status of" path)
        | .ok true => throw (sysError Errno.opnotsupp "can't change mode of symlink" path)
        | .ok false =>
            if env.haveProc then
              chmodOrThrow env (chmodFd pathFd) s!"chmod /proc/self/fd/{pathFd} ({shown})"
            else chmodOrThrow env (fchmodat env dirFd (filename path)) s!"fchmodat {shown}"

/-- What `_deletePath` does with a directory before it removes it, where `visit`
    is the call for an entry. -/
def clearDirectory (visit : Nat → NodePath → DeleteM Unit) (parentfd : Nat) (path : NodePath)
    (accessible : Bool) : DeleteM Unit := do
  (if accessible then pure () else fchmodatTryNoFollow env parentfd path)
  match ← look env (openDirectoryAt parentfd (filename path)) with
  | .error e => throw (sysError e "opening directory" path)
  | .ok fd => do
      let (names, failure) ← readdir env fd
      names.forM fun childName =>
        if childName = ascii "." ∨ childName = ascii ".." then pure ()
        else visit fd (path ++ [childName])
      match failure with
      | none => pure ()
      | some code => throw (sysError (.other code) "reading directory" path)

/-- `_deletePath` with a descriptor of the parent.  The recursion goes one step
    deeper for every directory on the way down. -/
def deletePathAt : Nat → Nat → NodePath → DeleteM Unit
  | 0, _, _ => pure ()
  | depth + 1, parentfd, path => do
      match ← look env (fstatat parentfd (filename path)) with
      | .error .noent => pure ()
      | .error .notdir => pure ()
      | .error e => throw (sysError e "getting status of" path)
      | .ok st => do
          modify fun s => { s with bytesFreed := s.bytesFreed + likelyFreed st }
          (if st.directory then clearDirectory env (deletePathAt depth) parentfd path st.accessible
            else pure ())
          unlinkLast env parentfd path st.directory

/-- `deletePath`, where the parent can be opened or not. -/
def deletePath (depth : Nat) (parent : Except Errno Nat) (path : NodePath) : DeleteM Unit := do
  modify fun s => { s with bytesFreed := 0 }
  match parent with
  | .error .noent => pure ()
  | .error e => throw (sysError e "opening directory" path.dropLast)
  | .ok dirfd => do
      modify fun s => { s with ex := none }
      deletePathAt env depth dirfd path
      match (← get).ex with
      | none => pure ()
      | some e => throw e

end DeletePath
end NixStore
