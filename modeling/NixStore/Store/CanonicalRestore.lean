/-
  NixStore.Store.CanonicalRestore

  Mode bits and modification times of what a restore creates (`RestoreSink`,
  `libutil/fs-sink.cc`; `restorePathCapturingHashes` and the end of
  `addToStoreFromDump`, `libstore/local-store.cc`;
  `libstore/posix-fs-canonicalise.cc`).

  Names, contents, the queue and the worker are those of `Restoring`; here each
  inode and each directory has a mode and a modification time as well.  Time is
  what `clock` says: every call that the kernel stamps takes its next value, so
  nothing is assumed about how it passes.
-/

import NixStore.Store.OptimiseStore

namespace NixStore

-- ============================================================================
-- Modes and times
-- ============================================================================

/-- `st_mode` without the type. -/
abbrev Perms := BitVec 12

/-- What is used of `struct stat` here: `st_mode` without the type, and
    `st_mtime`. -/
structure Metadata where
  mode : Perms
  mtime : Int
deriving DecidableEq

/-- `S_IXUSR`. -/
def sIXUSR : Perms := 0o100#12

/-- `mtimeStore`, which is also the time in `canonicalTimes`. -/
def mtimeStore : Int := 1

/-- `canon`. -/
def canonicalMode (type : FileType) (mode : Perms) : Perms :=
  if type = .directory then 0o755#12
  else if mode &&& sIXUSR ≠ 0 then 0o555#12 else 0o444#12

/-- What `canonicaliseTimestampAndPermissions` makes of what `lstat` said. -/
def Metadata.canonicalise (type : FileType) (st : Metadata) : Metadata where
  mode :=
    if type = .symlink then st.mode
    else if st.mode ≠ canonicalMode type st.mode then canonicalMode type st.mode else st.mode
  mtime := if st.mtime ≠ mtimeStore then mtimeStore else st.mtime

/-- `umaskPreservesCanonicalModes`. -/
def umaskPreservesCanonicalModes (umask : Perms) : Bool := umask &&& 0o555#12 = 0

-- ============================================================================
-- Names and contents
-- ============================================================================

namespace Restoring

variable (store : StoreDirConfig) (linkFails : NodePath → Bool) (hasher : Option Bool)

def pauseFor (w : Restoring) : Restoring :=
  match hasher with
  | none => w
  | some _ => w.turn store linkFails

def reportFor (ev : Ev) (w : Restoring) : Restoring :=
  match hasher with
  | none => w
  | some threaded => w.push store linkFails threaded ev

/-- `RestoreSink` without modes and times, with `FileHashingSink` in front if
    there is a hasher. -/
def sinkFor : FileSystemObjectSink Restoring where
  skipContents := false
  createDirectory path w :=
    newEntry "directory" path (·.mkdir (.inside path)) (w.pauseFor store linkFails hasher)
  createSymlink path target w :=
    newEntry "symlink" path (·.create (.inside path) (.symlink target))
      (w.pauseFor store linkFails hasher)
  createRegularFile path w := do
    let w := w.pauseFor store linkFails hasher
    let w' ← newEntry "file" path (·.create (.inside path) (.regular false [])) w
    let w' := { w' with fd := w.fs.next, buffer := [] }
    pure ((w'.pauseFor store linkFails hasher).reportFor store linkFails hasher (.begin path))
  isExecutable _ w :=
    let w := ((w.pauseFor store linkFails hasher).reportFor store linkFails hasher .exec).pauseFor
      store linkFails hasher
    .ok { w with fs := w.fs.modify w.fd markExecutable }
  preallocateContents _ size w :=
    .ok ((w.pauseFor store linkFails hasher).reportFor store linkFails hasher (.size size))
  write _ data w :=
    let w := ((w.pauseFor store linkFails hasher).reportFor store linkFails hasher
      (.data data)).pauseFor store linkFails hasher
    .ok (w.fdWrite data)
  finishRegularFile _ w :=
    let w := ((w.pauseFor store linkFails hasher).reportFor store linkFails hasher
      .finish).pauseFor store linkFails hasher
    .ok w.flush

theorem sinkFor_some (threaded : Bool) :
    sinkFor store linkFails (some threaded) = fileHashingSink store linkFails threaded := rfl

end Restoring

-- ============================================================================
-- State
-- ============================================================================

/-- A restore, with the mode and the time of everything. -/
structure Stamping where
  w : Restoring
  inode : Nat → Metadata
  /-- Those of the directories at and below the destination. -/
  dir : NodePath → Metadata
  /-- `RestoreRegularFile::madeExecutable` of the open file. -/
  madeExecutable : Bool
  /-- What `deferCanonicalDirs` points to. -/
  deferred : List NodePath
  /-- How often the clock has been read. -/
  ticks : Nat

/-- How a path is restored. -/
structure RestoreOptions where
  /-- `RestoreSink::canonical`. -/
  canonical : Bool
  umask : Perms
  /-- With a `FileHashingSink` in front, whether its hasher has a thread.
      Without one this is a plain `restorePath`. -/
  hasher : Option Bool

namespace Stamping

/-- `lstat` of a path at or below the destination. -/
def stat (s : Stamping) (path : NodePath) : Option Metadata :=
  match s.w.fs.names (.inside path) with
  | none => none
  | some .directory => some (s.dir path)
  | some (.object i) => some (s.inode i)

def setInode (i : Nat) (m : Metadata) (s : Stamping) : Stamping :=
  { s with inode := Function.update s.inode i m }

def setDir (path : NodePath) (m : Metadata) (s : Stamping) : Stamping :=
  { s with dir := Function.update s.dir path m }

section Stamps

variable (clock : Nat → Int)

/-- The kernel stamps an inode. -/
def stampInode (i : Nat) (mode : Perms) (s : Stamping) : Stamping :=
  { s.setInode i ⟨mode, clock s.ticks⟩ with ticks := s.ticks + 1 }

/-- The kernel stamps a directory. -/
def stampDir (path : NodePath) (mode : Perms) (s : Stamping) : Stamping :=
  { s.setDir path ⟨mode, clock s.ticks⟩ with ticks := s.ticks + 1 }

/-- An entry has been created, renamed or removed.  What is beside the
    destination is in a directory that is not looked at. -/
def entryChanged (path : NodePath) (s : Stamping) : Stamping :=
  if path = [] then s else s.stampDir clock path.dropLast (s.dir path.dropLast).mode

end Stamps

-- ============================================================================
-- The worker
-- ============================================================================

section Worker

variable (store : StoreDirConfig) (linkFails : NodePath → Bool) (clock : Nat → Int)

/-- Whether the worker's next call creates, renames or removes an entry of the
    directory of its file. -/
def changesEntry (w : Restoring) : Bool :=
  match w.pc with
  | .link => (w.workerStep store linkFails).pc = .rename
  | .rename => (w.workerStep store linkFails).pc ≠ .unlink
  | .unlink => true
  | _ => false

/-- One step of the worker. -/
def workerStep (s : Stamping) : Stamping :=
  let s' : Stamping := { s with w := s.w.workerStep store linkFails }
  if changesEntry store linkFails s.w then s'.entryChanged clock s.w.job.key else s'

def steps : Nat → Stamping → Stamping
  | 0, s => s
  | n + 1, s => steps n (s.workerStep store linkFails clock)

def turn (s : Stamping) : Stamping :=
  match s.w.turns with
  | [] => s
  | n :: rest => steps store linkFails clock n { s with w := { s.w with turns := rest } }

def close (s : Stamping) : Stamping := steps store linkFails clock s.w.work s

def awaitRoom : Nat → Stamping → Stamping
  | 0, s => s
  | n + 1, s =>
      if s.w.events.length < maxQueued then s
      else awaitRoom n (s.workerStep store linkFails clock)

def push (threaded : Bool) (ev : Ev) (s : Stamping) : Stamping :=
  if threaded then
    let s := awaitRoom store linkFails clock s.w.work s
    { s with w := { s.w with events := s.w.events ++ [ev] } }
  else close store linkFails clock { s with w := { s.w with events := s.w.events ++ [ev] } }

end Worker

-- ============================================================================
-- The restoring thread
-- ============================================================================

section Sink

variable (store : StoreDirConfig) (linkFails : NodePath → Bool) (clock : Nat → Int)
  (o : RestoreOptions)

/-- The worker's turn, if there is one. -/
def pause (s : Stamping) : Stamping :=
  match o.hasher with
  | none => s
  | some _ => s.turn store linkFails clock

/-- What `FileHashingSink` reports, if it is there. -/
def report (ev : Ev) (s : Stamping) : Stamping :=
  match o.hasher with
  | none => s
  | some threaded => s.push store linkFails clock threaded ev

/-- A new name in a directory. -/
def newEntry (what : String) (path : NodePath) (make : Fs Place Object → Option (Fs Place Object))
    (s : Stamping) : Except Error Stamping := do
  let w ← s.w.newEntry what path make
  pure (({ s with w } : Stamping).entryChanged clock path)

/-- `RestoreSink`, with `FileHashingSink` in front if there is a hasher. -/
def restoreSink : FileSystemObjectSink Stamping where
  skipContents := false
  createDirectory path s := do
    let s := s.pause store linkFails clock o
    let s ← newEntry clock "directory" path (·.mkdir (.inside path)) s
    pure (s.stampDir clock path (0o777#12 &&& ~~~o.umask))
  createSymlink path target s := do
    let s := s.pause store linkFails clock o
    let ino := s.w.fs.next
    let s ← newEntry clock "symlink" path (·.create (.inside path) (.symlink target)) s
    let s := s.stampInode clock ino 0o777#12
    pure (if o.canonical then s.setInode ino ⟨0o777#12, mtimeStore⟩ else s)
  createRegularFile path s := do
    let s := s.pause store linkFails clock o
    let ino := s.w.fs.next
    let s ← newEntry clock "file" path (·.create (.inside path) (.regular false [])) s
    let s := s.stampInode clock ino ((if o.canonical then 0o444#12 else 0o666#12) &&& ~~~o.umask)
    let s : Stamping :=
      { s with w := { s.w with fd := ino, buffer := [] }, madeExecutable := false }
    pure ((s.pause store linkFails clock o).report store linkFails clock o (.begin path))
  isExecutable _ s :=
    let s := s.pause store linkFails clock o
    let s := (s.report store linkFails clock o .exec).pause store linkFails clock o
    let st := s.inode s.w.fd
    let s : Stamping :=
      { s with w := { s.w with fs := s.w.fs.modify s.w.fd Restoring.markExecutable } }
    .ok (if o.canonical then
      { s with madeExecutable := true }.setInode s.w.fd { st with mode := 0o555#12 }
    else s.setInode s.w.fd { st with mode := st.mode ||| 0o111#12 })
  preallocateContents _ size s :=
    .ok ((s.pause store linkFails clock o).report store linkFails clock o (.size size))
  write _ data s :=
    let s := s.pause store linkFails clock o
    let s := (s.report store linkFails clock o (.data data)).pause store linkFails clock o
    let s' : Stamping := { s with w := s.w.fdWrite data }
    -- the kernel stamps the file when the buffer is passed on
    .ok (if data.length ≥ bufSize - s.w.buffer.length then
      s'.stampInode clock s.w.fd (s.inode s.w.fd).mode
    else s')
  finishRegularFile _ s :=
    let s := s.pause store linkFails clock o
    let s := (s.report store linkFails clock o .finish).pause store linkFails clock o
    let flushed : Stamping := { s with w := s.w.flush }
    let flushed := if s.w.buffer = [] then flushed
      else flushed.stampInode clock s.w.fd (s.inode s.w.fd).mode
    let mode := (s.inode s.w.fd).mode
    .ok (if o.canonical then
      flushed.setInode s.w.fd ⟨if ¬ umaskPreservesCanonicalModes o.umask ∧ ¬ s.madeExecutable
        then 0o444#12 else mode, mtimeStore⟩
    else flushed)

/-- `finishCanonical`, which is called for all directories but the root. -/
def finishCanonical (path : NodePath) (s : Stamping) : Stamping :=
  if path = [] ∨ o.canonical = false then s
  else if o.hasher.isSome then { s with deferred := s.deferred ++ [path] }
  else s.setDir path ⟨0o755#12, mtimeStore⟩

end Sink

end Stamping

/-- A call of the sink, or the return of what was given to `createDirectory`. -/
inductive SinkEvent where
  | call (c : Call)
  | leave (path : NodePath)

namespace NarNode

mutual

/-- What happens to the sink while a node is restored. -/
def events : NodePath → NarNode → List SinkEvent
  | path, .regular executable contents _ => (regularCalls path executable contents).map .call
  | path, .directory entries =>
      .call (.createDirectory path) :: (eventsEntries path entries ++ [.leave path])
  | path, .symlink target => [.call (.createSymlink path target)]

/-- `events` for the entries of the directory at `path`. -/
def eventsEntries : NodePath → List (Bytes × NarNode) → List SinkEvent
  | _, [] => []
  | path, (name, x) :: rest => events (path ++ [name]) x ++ eventsEntries path rest

end

end NarNode

namespace Stamping

section Import

variable (store : StoreDirConfig) (linkFails : NodePath → Bool) (clock : Nat → Int)
  (o : RestoreOptions)

def runEvents : List SinkEvent → Stamping → Except Error Stamping
  | [], s => .ok s
  | .call c :: rest, s =>
      c.run (restoreSink store linkFails clock o) s >>= runEvents rest
  | .leave path :: rest, s => runEvents rest (s.finishCanonical o path)

/-- The directories that had to wait for the hasher. -/
def stampDeferred (s : Stamping) : Stamping :=
  s.deferred.foldl (fun s path => s.setDir path ⟨0o755#12, mtimeStore⟩) s

/-- `restorePath`, or `restorePathCapturingHashes`, of the archive of a tree. -/
def restoreTree (f : File) (s : Stamping) : Except Error Stamping := do
  let s ← runEvents store linkFails clock o (NarNode.events [] f.toNar) { s with deferred := [] }
  pure (match o.hasher with
    | none => s
    | some _ => (s.close store linkFails clock).stampDeferred)

/-- `canonicaliseTimestampAndPermissions`. -/
def canonicaliseTimestampAndPermissions (path : NodePath) (s : Stamping) : Except Error Stamping :=
  match s.w.fs.names (.inside path) with
  | none => .error (.error s!"getting status of '{showPath path}': No such file or directory")
  | some .directory => .ok (s.setDir path ((s.dir path).canonicalise .directory))
  | some (.object i) => .ok (s.setInode i ((s.inode i).canonicalise (s.w.fs.inodes i).type))

/-- `canonicalisePathMetaData_`, where `readdir` lists the directories.  The
    number bounds the depth of the tree. -/
def canonicalisePathMetaData_ (readdir : NodePath → List Bytes) :
    Nat → NodePath → Stamping → Except Error Stamping
  | 0, _, _ => .error (.error "stack overflow")
  | n + 1, path, s => do
      let s ← s.canonicaliseTimestampAndPermissions path
      if s.w.fs.names (.inside path) = some .directory then
        (readdir path).foldlM
          (fun s name => canonicalisePathMetaData_ readdir n (path ++ [name]) s) s
      else pure s

/-- The restore and what `addToStoreFromDump` does to the metadata after it.
    A `moveFile` of the root in between changes nothing at or below the root.
    No archive is deeper than `narMaxDepth`. -/
def importTree (readdir : NodePath → List Bytes) (f : File) (s : Stamping) :
    Except Error Stamping := do
  let s ← s.restoreTree store linkFails clock o f
  if o.canonical then s.canonicaliseTimestampAndPermissions []
  else s.canonicalisePathMetaData_ readdir narMaxDepth []

end Import

end Stamping

end NixStore
