/-
  NixStore.Util.FsSink

  Receivers of file-system objects (`libutil/fs-sink.{hh,cc}`,
  `libutil/memory-source-accessor.cc`).

  A `FileSystemObjectSink` is the table of its member functions over the
  state they change.  The regular-file callback is flattened: between
  `createRegularFile path` and `finishRegularFile path` the functions of the
  `CreateRegularFileSink` act on the file at `path`.
-/

import NixStore.Util.MemorySourceAccessor

namespace NixStore

/-- `FileSystemObjectSink` together with its `CreateRegularFileSink`. -/
structure FileSystemObjectSink (σ : Type) where
  /-- `CreateRegularFileSink::skipContents`. -/
  skipContents : Bool
  createDirectory : NodePath → σ → Except Error σ
  /-- What `createRegularFile` does before it calls its argument. -/
  createRegularFile : NodePath → σ → Except Error σ
  isExecutable : NodePath → σ → Except Error σ
  preallocateContents : NodePath → Nat → σ → Except Error σ
  /-- `CreateRegularFileSink::operator()`. -/
  write : NodePath → Bytes → σ → Except Error σ
  /-- What `createRegularFile` does after its argument has returned. -/
  finishRegularFile : NodePath → σ → Except Error σ
  createSymlink : NodePath → Bytes → σ → Except Error σ

/-- `NullFileSystemObjectSink`: ignores everything and does not ask for file
    contents. -/
def nullFileSystemObjectSink : FileSystemObjectSink Unit where
  skipContents := true
  createDirectory _ st := .ok st
  createRegularFile _ st := .ok st
  isExecutable _ st := .ok st
  preallocateContents _ _ st := .ok st
  write _ _ st := .ok st
  finishRegularFile _ st := .ok st
  createSymlink _ _ st := .ok st

/-! ## `MemorySink` -/

/-- `MemorySourceAccessor::open(path, create)` from the (optional) root. -/
def openRoot (path : NodePath) (create : File) :
    Option File → Except Error (Option (File × File))
  | none => if path = [] then .ok (some (create, create)) else .ok none
  | some root => (File.openCreate create [] path root).map some

/-- `dst.open(path, create)` with the null check every creator makes. -/
def openOrThrow (what : String) (path : NodePath) (create : File) (dst : Option File) :
    Except Error (File × File) := do
  match ← openRoot path create dst with
  | some r => pure r
  | none => throw (.error
      s!"{what} '{showPath path}' cannot be created because some parent directories don't exist")

/-- Set the executable flag of a regular file. -/
def File.setExecutable : File → File
  | .regular _ contents => .regular true contents
  | f => f

/-- Append to a regular file. -/
def File.append (data : Bytes) : File → File
  | .regular x contents => .regular x (contents ++ data)
  | f => f

/-- `MemorySink`; the state is the root of the accessor it writes to.
    Reserving capacity does not change the contents, so `preallocateContents`
    leaves the state alone. -/
def memorySink : FileSystemObjectSink (Option File) where
  skipContents := false
  createDirectory path dst := do
    let (root, f) ← openOrThrow "directory" path (.directory []) dst
    match f with
    | .directory _ => pure (some root)
    | _ => throw (.error s!"file '{showPath path}' is not a directory")
  createRegularFile path dst := do
    let (root, f) ← openOrThrow "file" path (.regular false []) dst
    match f with
    | .regular .. => pure (some root)
    | _ => throw (.error s!"file '{showPath path}' is not a regular file")
  isExecutable path dst := .ok (dst.map (File.modifyAt File.setExecutable path))
  preallocateContents _ _ dst := .ok dst
  write path data dst := .ok (dst.map (File.modifyAt (File.append data) path))
  finishRegularFile _ dst := .ok dst
  createSymlink path target dst := do
    let (root, f) ← openOrThrow "symlink" path (.symlink []) dst
    match f with
    | .symlink _ => pure (some (File.modifyAt (fun _ => .symlink target) path root))
    | _ => throw (.error s!"file '{showPath path}' is not a symbolic link")

end NixStore
