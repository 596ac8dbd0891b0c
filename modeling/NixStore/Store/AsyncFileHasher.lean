/-
  NixStore.Store.AsyncFileHasher

  Restoring an archive while a worker hashes its files and swaps those that
  the link farm has for hard links (`AsyncFileHasher`, `FileHashingSink` and
  `restorePathCapturingHashes`, `libstore/local-store.cc`; `RestoreSink`,
  `libutil/fs-sink.cc`).

  The restoring thread and the worker share the directory and a bounded queue
  of events.  Between two actions of the restoring thread the worker takes any
  number of steps, one system call each; how many is in `turns`.  A file is
  written through its descriptor, so what was still buffered when the worker
  renamed a farm entry over the file goes to an inode without a name.
-/

import NixStore.Util.NarCalls
import NixStore.Store.ContentAddress

namespace NixStore

-- ============================================================================
-- Events
-- ============================================================================

/-- `AsyncFileHasher::Ev`. -/
inductive Ev where
  | begin (key : NodePath)
  | exec
  | size (n : Nat)
  | data (d : Bytes)
  | finish
deriving DecidableEq

/-- The per-file state: `key`, what went into `hash`, and `size`, which stays
    from one file to the next. -/
structure Job where
  key : NodePath
  hashed : Bytes
  size : Nat
deriving DecidableEq

/-- `begin`, `exec`, `setSize`, `data` and what `end` adds to the hash. -/
def Job.absorb (j : Job) : Ev → Job
  | .begin key => { j with
      key, hashed := writeString narVersionMagic1 ++ tag "(" ++ tag "type" ++ tag "regular" }
  | .exec => { j with hashed := j.hashed ++ tag "executable" ++ tag "" }
  | .size n => { j with size := n, hashed := j.hashed ++ tag "contents" ++ writeNum n }
  | .data d => { j with hashed := j.hashed ++ d }
  | .finish => { j with hashed := j.hashed ++ writePadding j.size ++ tag ")" }

/-- Where the worker is: waiting for an event, or about to make a system call
    of `tryDedup`. -/
inductive WorkerPc where
  | ready
  | lstat
  | link
  | rename
  | unlink
deriving DecidableEq

/-- The names that the restore and its worker use: those at and below the
    destination, the one that the worker puts beside a destination that is a
    file, and those of the links directory. -/
inductive Place where
  | inside (path : NodePath)
  | beside
  | farm (hash : Hash)
deriving DecidableEq

/-- `file.native() + ".dedup~"`. -/
def dedupName (key : NodePath) : Place :=
  match key.getLast? with
  | none => .beside
  | some name => .inside (key.dropLast ++ [name ++ ascii ".dedup~"])

/-- `maxQueued`. -/
def maxQueued : Nat := 64

/-- `BufferedSink::bufSize`. -/
def bufSize : Nat := 32 * 1024

/-- `struct stat::st_size`. -/
def Object.size : Object → Nat
  | .regular _ contents => contents.length
  | .symlink target => target.length

/-- The file system, the open file, the queue and the worker. -/
structure Restoring where
  fs : Fs Place Object
  /-- The inode behind `RestoreRegularFile::fd`. -/
  fd : Nat
  buffer : Bytes
  events : List Ev
  job : Job
  pc : WorkerPc
  /-- `ImportFileHashes::files`. -/
  files : List (NodePath × Hash)
  dedupedFiles : Nat
  dedupedBytes : Nat
  /-- How many steps the worker takes at each opportunity. -/
  turns : List Nat

namespace Restoring

section Worker

variable (store : StoreDirConfig) (linkFails : NodePath → Bool)

-- ============================================================================
-- The worker
-- ============================================================================

/-- The hash of the file that has ended. -/
def hash (w : Restoring) : Hash := (store.hashString .sha256 w.job.hashed).1

/-- The end of `end`: `files.insert_or_assign`. -/
def record (w : Restoring) : Restoring :=
  { w with
    files := (w.job.key, w.hash store) :: w.files.filter fun e => e.1 ≠ w.job.key
    pc := .ready }

/-- Whether `tryDedup` finds a farm entry of the right size. -/
def farmHasSize (w : Restoring) : Bool :=
  match w.fs.read (.farm (w.hash store)) with
  | some (.object o) => decide (o.size = w.job.size)
  | _ => false

/-- One step of the worker: it takes an event off the queue, or makes one
    system call of `tryDedup`.  `linkFails` are the files where `link` fails
    for a reason that has nothing to do with the names. -/
def workerStep (w : Restoring) : Restoring :=
  match w.pc with
  | .ready =>
      match w.events with
      | [] => w
      | ev :: rest =>
          let w := { w with job := w.job.absorb ev, events := rest }
          if ev = .finish then
            if w.job.size = 0 then w.record store else { w with pc := .lstat }
          else w
  | .lstat => if w.farmHasSize store then { w with pc := .link } else w.record store
  | .link =>
      match if linkFails w.job.key then none
        else w.fs.link (.farm (w.hash store)) (dedupName w.job.key) with
      | some fs => { w with fs, pc := .rename }
      | none => w.record store
  | .rename =>
      match w.fs.rename (dedupName w.job.key) (.inside w.job.key) with
      | some fs => ({ w with
          fs
          dedupedFiles := w.dedupedFiles + 1
          dedupedBytes := w.dedupedBytes + w.job.size } : Restoring).record store
      | none => { w with pc := .unlink }
  | .unlink => ({ w with fs := w.fs.unlink (dedupName w.job.key) } : Restoring).record store

/-- The steps that `tryDedup` may still take. -/
def pcWork : WorkerPc → Nat
  | .ready => 0
  | .unlink => 1
  | .rename => 2
  | .link => 3
  | .lstat => 4

/-- The steps until the queue is empty, at most. -/
def work (w : Restoring) : Nat := 5 * w.events.length + pcWork w.pc

/-- The worker takes some steps. -/
def steps : Nat → Restoring → Restoring
  | 0, w => w
  | n + 1, w => steps n (w.workerStep store linkFails)

/-- The worker takes the steps that are its turn. -/
def turn (w : Restoring) : Restoring :=
  match w.turns with
  | [] => w
  | n :: rest => steps store linkFails n { w with turns := rest }

/-- `close`: the worker is joined. -/
def close (w : Restoring) : Restoring := steps store linkFails w.work w

/-- `cvPop.wait`: the worker takes steps until the queue has room. -/
def awaitRoom : Nat → Restoring → Restoring
  | 0, w => w
  | n + 1, w =>
      if w.events.length < maxQueued then w else awaitRoom n (w.workerStep store linkFails)

/-- `push`.  Without a thread the event is handled at once. -/
def push (threaded : Bool) (ev : Ev) (w : Restoring) : Restoring :=
  if threaded then
    let w := awaitRoom store linkFails w.work w
    { w with events := w.events ++ [ev] }
  else close store linkFails { w with events := w.events ++ [ev] }

end Worker

-- ============================================================================
-- The restoring thread
-- ============================================================================

/-- A new name, made as `make` does. -/
def newEntry (what : String) (path : NodePath) (make : Fs Place Object → Option (Fs Place Object))
    (w : Restoring) : Except Error Restoring := do
  throwIf (path ≠ [] ∧ w.fs.names (.inside path.dropLast) ≠ some .directory) (.error
    (if w.fs.names (.inside []) = none then
      s!"cannot create non-root path '{showPath path}' without a root directory"
    else s!"opening parent directory of '{showPath path}'"))
  match make w.fs with
  | some fs => pure { w with fs }
  | none => throw (.error s!"creating {what} '{showPath path}': File exists")

/-- `write(2)` at the end of a regular file. -/
def appendTo (data : Bytes) : Object → Object
  | .regular executable contents => .regular executable (contents ++ data)
  | o => o

/-- `fchmod` for an executable file. -/
def markExecutable : Object → Object
  | .regular _ contents => .regular true contents
  | o => o

/-- `BufferedSink::flush`. -/
def flush (w : Restoring) : Restoring :=
  { w with fs := w.fs.modify w.fd (appendTo w.buffer), buffer := [] }

/-- `BufferedSink::operator()`. -/
def fdWrite (data : Bytes) (w : Restoring) : Restoring :=
  if data.length ≥ bufSize - w.buffer.length then
    let w := w.flush
    { w with fs := w.fs.modify w.fd (appendTo data) }
  else { w with buffer := w.buffer ++ data }

section Sink

variable (store : StoreDirConfig) (linkFails : NodePath → Bool) (threaded : Bool)

/-- `FileHashingSink` over `RestoreSink`.  `fileEnd` comes before the file is
    flushed. -/
def fileHashingSink : FileSystemObjectSink Restoring where
  skipContents := false
  createDirectory path w := newEntry "directory" path (·.mkdir (.inside path)) (w.turn store linkFails)
  createSymlink path target w :=
    newEntry "symlink" path (·.create (.inside path) (.symlink target)) (w.turn store linkFails)
  createRegularFile path w := do
    let w := w.turn store linkFails
    let w' ← newEntry "file" path (·.create (.inside path) (.regular false [])) w
    let w' := { w' with fd := w.fs.next, buffer := [] }
    pure (push store linkFails threaded (.begin path) (w'.turn store linkFails))
  isExecutable _ w :=
    let w := (push store linkFails threaded .exec (w.turn store linkFails)).turn store linkFails
    .ok { w with fs := w.fs.modify w.fd markExecutable }
  preallocateContents _ size w :=
    .ok (push store linkFails threaded (.size size) (w.turn store linkFails))
  write _ data w :=
    let w := (push store linkFails threaded (.data data) (w.turn store linkFails)).turn store linkFails
    .ok (w.fdWrite data)
  finishRegularFile _ w :=
    let w := (push store linkFails threaded .finish (w.turn store linkFails)).turn store linkFails
    .ok w.flush

/-- `restorePathCapturingHashes` of an archive, with a links directory. -/
def restorePathCapturingHashes (source : Bytes) (w : Restoring) :
    Except Error (Bytes × Restoring) := do
  let (rest, w) ← parseDump NarNode.plain (fileHashingSink store linkFails threaded) source w
  pure (rest, w.close store linkFails)

end Sink

end Restoring

end NixStore
