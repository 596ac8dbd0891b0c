/-
  NixStore.Util.PosixSourceAccessor

  `PosixDirectorySourceAccessor` (`libutil/posix-source-accessor.cc`): reads a
  directory of the file system through descriptors, and keeps the descriptors of
  directories on the way in a cache.  All accessors of a process share a limit
  on the number of cached descriptors.

  A path is relative to the directory of the accessor.  The single-threaded case
  is modelled: one call ends before the next one begins.
-/

import NixStore.Lib.Related
import NixStore.Util.LruCache
import NixStore.Util.CanonPath
import NixStore.Util.OpenBeneath

namespace NixStore
namespace PosixAccessor

open FileSystemAt Related

/-- The file system, with the modification times, and what `/proc/self/fd` says
    of a descriptor. -/
structure Disk extends World where
  mtime : Nat → Nat → Int
  procPath : Nat → Nat → Bytes

/-- What an accessor throws. -/
inductive AccessError where
  | fileNotFound (msg : String)
  | notADirectory (msg : String)
  | notARegularFile (msg : String)
  | notASymlink (msg : String)
  | symlinkNotAllowed (path : NodePath) (msg : String)
  | sysError (errno : Errno) (msg : String)
  /-- There is no such accessor. -/
  | gone
deriving DecidableEq

/-- `SourceAccessor::Stat`. -/
structure Stat where
  type : SourceAccessor.NodeType
  fileSize : Option Nat
  isExecutable : Bool
deriving DecidableEq

/-- `sourceAccessorStatFromPosixStat`. -/
def sourceAccessorStatFromPosixStat : Inode Bytes Bytes Leaf → Stat
  | .directory _ => { type := .directory, fileSize := none, isExecutable := false }
  | .symlink _ => { type := .symlink, fileSize := none, isExecutable := false }
  | .object (.regular executable contents) =>
      { type := .regular, fileSize := some contents.length, isExecutable := executable }
  | .object (.special type) => { type, fileSize := none, isExecutable := false }

/-- `PosixDirectorySourceAccessor` but for its cache. -/
structure AccessorBase where
  dirFd : Nat
  displayPrefix : Bytes
  trackLastModified : Bool
  mtime : Int

/-- `PosixDirectorySourceAccessor`. -/
structure Accessor extends AccessorBase where
  dirFdCache : Option (LruCache NodePath Nat)

/-- A path below another one, given as a text. -/
def below (dir : Bytes) (path : NodePath) : Bytes :=
  if dir.getLast? = some 0x2f then dir ++ (renderPath path).drop 1 else dir ++ renderPath path

/-- `showPath`. -/
def AccessorBase.showPath (acc : AccessorBase) (path : NodePath) : String :=
  if path = [] then showBytes acc.displayPrefix else showBytes (below acc.displayPrefix path)

/-- What the accessors of a process share. -/
structure Process where
  /-- The accessors in the order in which they were made; one that is gone
      leaves its place empty. -/
  accessors : List (Option Accessor)
  globalDirFdCount : Nat
  globalFdLimit : Nat
  /-- The number of the next system call. -/
  time : Nat

abbrev AccessM := EStateM AccessError Process

-- ============================================================================
-- The cache
-- ============================================================================

def Process.accessor (p : Process) (a : Nat) : Option Accessor := p.accessors[a]?.join

/-- Change an accessor. -/
def Process.adjust (p : Process) (a : Nat) (f : Accessor → Accessor) : Process :=
  { p with accessors := p.accessors.modify a (Option.map f) }

theorem accessor_adjust {p : Process} {a : Nat} (f : Accessor → Accessor) (b : Nat) :
    (p.adjust a f).accessor b = if a = b then (p.accessor b).map f else p.accessor b := by
  unfold Process.accessor Process.adjust
  simp only [List.getElem?_modify]
  cases p.accessors[b]? with
  | none => split <;> rfl
  | some acc =>
      split
      · rfl
      · rfl

theorem length_adjust {p : Process} {a : Nat} (f : Accessor → Accessor) :
    (p.adjust a f).accessors.length = p.accessors.length :=
  List.length_modify ..

/-- What the member functions read of an accessor. -/
def getAccessor (a : Nat) : AccessM AccessorBase := fun p =>
  match p.accessor a with
  | some acc => .ok acc.toAccessorBase p
  | none => .error .gone p

/-- A system call. -/
def sys {α : Type} (f : Nat → α) : AccessM α := fun p =>
  .ok (f p.time) { p with time := p.time + 1 }

/-- An emptied cache. -/
def Accessor.emptied (acc : Accessor) : Accessor :=
  { acc with dirFdCache := acc.dirFdCache.map fun cache => .empty cache.capacity }

/-- The descriptors that an accessor keeps. -/
def Accessor.cached (acc : Accessor) : Nat :=
  match acc.dirFdCache with
  | some cache => cache.entries.length
  | none => 0

/-- The loop of `maybeEvictFromGlobalCaches`. -/
def evictFrom (limit : Nat) : List (Option Accessor) → Nat → List (Option Accessor) × Nat
  | [], count => ([], count)
  | accessor :: rest, count =>
      if count < limit then (accessor :: rest, count)
      else
        match accessor with
        | none =>
            let (rest, count) := evictFrom limit rest count
            (none :: rest, count)
        | some acc =>
            let (rest, count) := evictFrom limit rest (count - acc.cached)
            (some acc.emptied :: rest, count)

/-- `maybeEvictFromGlobalCaches`. -/
def maybeEvictFromGlobalCaches (p : Process) : Process :=
  let (accessors, globalDirFdCount) := evictFrom p.globalFdLimit p.accessors p.globalDirFdCount
  { p with accessors, globalDirFdCount }

/-- Keep a descriptor, if there is a cache. -/
def Process.keepDirFd (p : Process) (a : Nat) (key : NodePath) (fd : Nat) : Process :=
  match (p.accessor a).bind Accessor.dirFdCache with
  | none => p
  | some cache =>
      { p.adjust a fun acc => { acc with dirFdCache := some (cache.upsert key fd) } with
        globalDirFdCount := p.globalDirFdCount + (cache.upsert key fd).entries.length -
          cache.entries.length }

/-- `insertIntoDirFdCache`, if there is a cache. -/
def insertIntoDirFdCache (a : Nat) (key : NodePath) (fd : Nat) : AccessM Unit :=
  modify fun p => p.keepDirFd a key fd

/-- The loop over the ancestors of a directory, from the directory up: the first
    one in the cache.  The directory is given from its last component on. -/
def findAnchor (cache : LruCache NodePath Nat) :
    List Bytes → Option (NodePath × Nat) × LruCache NodePath Nat
  | [] =>
      match cache.get [] with
      | (some fd, cache) => (some ([], fd), cache)
      | (none, cache) => (none, cache)
  | name :: above =>
      match cache.get (name :: above).reverse with
      | (some fd, cache) => (some ((name :: above).reverse, fd), cache)
      | (none, cache) => findAnchor cache above

/-- The nearest ancestor whose descriptor is cached. -/
def lookupAnchor (a : Nat) (parent : NodePath) : AccessM (Option (NodePath × Nat)) := fun p =>
  match (p.accessor a).bind Accessor.dirFdCache with
  | none => .ok none p
  | some cache =>
      let (hit, cache) := findAnchor cache parent.reverse
      .ok hit (p.adjust a fun acc => { acc with dirFdCache := some cache })

-- ============================================================================
-- Opening directories
-- ============================================================================

variable (d : Disk) (haveOpenat2 : Bool)

/-- `fstat(2)`. -/
def fstat (i : Nat) : AccessM (Inode Bytes Bytes Leaf × Int) := sys fun t => (d.fs t i, d.mtime t i)

/-- `fstatat(2)` with `AT_SYMLINK_NOFOLLOW`. -/
def fstatat (dirFd : Nat) (name : Bytes) : AccessM (Except Errno (Inode Bytes Bytes Leaf × Int)) :=
  sys fun t =>
    match d.fails t with
    | some code => .error (.other code)
    | none => (nameAt (d.fs t) dirFd name).map fun i => (d.fs t i, d.mtime t i)

/-- `readlinkat(2)`: none is `EINVAL`. -/
def readlinkat (dirFd : Nat) (name : Bytes) : AccessM (Except Errno (Option Bytes)) := do
  return (← fstatat d dirFd name).map fun st =>
    match st.1 with
    | .symlink target => some target
    | _ => none

/-- `descriptorToPath`. -/
def descriptorToPath (i : Nat) : AccessM Bytes := sys fun t => d.procPath t i

/-- `openat(2)` of `.`: another descriptor. -/
def reopen (dirFd : Nat) : AccessM (Except Errno Nat) :=
  sys fun t =>
    match d.fails t with
    | some code => .error (.other code)
    | none => .ok dirFd

/-- `readdir(3)` until the end, without `.` and `..`. -/
def readdir (dirFd : Nat) : AccessM (Option (List (Bytes × SourceAccessor.NodeType))) :=
  sys fun t =>
    match d.fs t dirFd with
    | .directory entries =>
        some (entries.map fun e => (e.1, (sourceAccessorStatFromPosixStat (d.fs t e.2)).type))
    | _ => none

/-- `O_DIRECTORY | O_RDONLY | O_CLOEXEC`. -/
def directoryFlags : OpenFlags where
  path := false
  directory := true
  creat := false
  excl := false
  noFollow := false

/-- `O_RDONLY | O_CLOEXEC`. -/
def fileFlags : OpenFlags where
  path := false
  directory := false
  creat := false
  excl := false
  noFollow := false

/-- `openFileEnsureBeneathNoSymlinks` with its callback. -/
def openBeneath (dirFd : Nat) (path : NodePath) (flags : OpenFlags)
    (dirFdCallback : Nat → NodePath → AccessM Unit) : AccessM Opened := do
  let t := (← get).time
  let (opened, walk) := openFileEnsureBeneathNoSymlinks d.toWorld haveOpenat2 t dirFd path flags
  modify fun p => { p with time := walk.time }
  walk.callbacks.forM fun c => dirFdCallback c.1 c.2
  pure opened

/-- No callback. -/
def noCallback : Nat → NodePath → AccessM Unit := fun _ _ => pure ()

/-- What `openParent` returns. -/
inductive ParentFd where
  /-- A descriptor, and whether it comes with an owner. -/
  | fd (ino : Nat) (owning : Bool)
  /-- An invalid descriptor, and `errno`. -/
  | invalid (errno : Errno)

/-- The rest of `openParent`, from a cached ancestor or the directory itself. -/
def openFrom (a : Nat) (acc : AccessorBase) (anchor : NodePath) (startFd : Nat) (relPath : NodePath) :
    AccessM ParentFd := do
  match ← openBeneath d haveOpenat2 startFd relPath directoryFlags
      (fun fd relKey => insertIntoDirFdCache a (anchor ++ relKey) fd) with
  | .fd i => pure (.fd i true)
  | .failed e => pure (.invalid e)
  | .symlinkNotAllowed p =>
      throw (.symlinkNotAllowed (anchor ++ p)
        s!"path '{acc.showPath (anchor ++ p)}' (or its ancestor) is a symlink")
  | .sysError code => throw (.sysError (.other code) "getting status")

/-- `openParent`. -/
def openParent (a : Nat) (path : NodePath) : AccessM ParentFd := do
  let acc ← getAccessor a
  if path.dropLast = [] then pure (.fd acc.dirFd false)
  else do
    modify maybeEvictFromGlobalCaches
    match ← lookupAnchor a path.dropLast with
    | some (anchor, fd) =>
        if anchor = path.dropLast then pure (.fd fd true)
        else openFrom d haveOpenat2 a acc anchor fd (path.dropLast.drop anchor.length)
    | none => openFrom d haveOpenat2 a acc [] acc.dirFd path.dropLast

/-- `openParentAndUpsert`: the descriptor of the parent, or none if it is missing
    and that is ignored. -/
def openParentAndUpsert (a : Nat) (path : NodePath) (ignoreMissing : Bool) :
    AccessM (Option Nat) := do
  let acc ← getAccessor a
  match ← openParent d haveOpenat2 a path with
  | .invalid e =>
      if e = .noent ∨ e = .notdir then
        if ignoreMissing then pure none
        else throw (.fileNotFound s!"path '{acc.showPath path}' does not exist")
      else throw (.sysError e s!"opening directory '{acc.showPath path.dropLast}'")
  | .fd i owning => do
      if owning then insertIntoDirFdCache a path.dropLast i
      pure (some i)

-- ============================================================================
-- The member functions
-- ============================================================================

/-- `maybeUpdateMtime`. -/
def maybeUpdateMtime (a : Nat) (seenMTime : Int) : AccessM Unit :=
  modify fun p => p.adjust a fun acc =>
    if acc.trackLastModified then { acc with mtime := max acc.mtime seenMTime } else acc

/-- The last component. -/
def baseName (path : NodePath) : Bytes := path.getLast?.getD []

/-- `maybeLstat`. -/
def maybeLstat (a : Nat) (path : NodePath) : AccessM (Option Stat) := do
  let acc ← getAccessor a
  if path = [] then do
    let st ← fstat d acc.dirFd
    maybeUpdateMtime a st.2
    pure (some (sourceAccessorStatFromPosixStat st.1))
  else do
    match ← openParentAndUpsert d haveOpenat2 a path true with
    | none => pure none
    | some parentFd => do
        match ← fstatat d parentFd (baseName path) with
        | .error .noent => pure none
        | .error e => throw (.sysError e s!"getting status of '{acc.showPath path}'")
        | .ok st => do
            maybeUpdateMtime a st.2
            pure (some (sourceAccessorStatFromPosixStat st.1))

/-- Open the last component below its parent. -/
def openLastAt (acc : AccessorBase) (parentFd : Nat) (path : NodePath) (flags : OpenFlags) :
    AccessM Opened := do
  match ← openBeneath d haveOpenat2 parentFd [baseName path] flags noCallback with
  | .symlinkNotAllowed p =>
      throw (.symlinkNotAllowed (path.dropLast ++ p)
        s!"path '{acc.showPath (path.dropLast ++ p)}' is a symlink")
  | r => pure r

/-- `readFile`: the contents. -/
def readFile (a : Nat) (path : NodePath) : AccessM Bytes := do
  let acc ← getAccessor a
  if path = [] then throw (.notARegularFile s!"'{acc.showPath path}' is not a regular file")
  else do
    match ← openParentAndUpsert d haveOpenat2 a path false with
    | none => throw .gone
    | some parentFd => do
        match ← openLastAt d haveOpenat2 acc parentFd path fileFlags with
        | .fd i => do
            let st ← fstat d i
            match st.1 with
            | .object (.regular _ contents) => do
                maybeUpdateMtime a st.2
                pure contents
            | _ => throw (.notARegularFile s!"file '{acc.showPath path}' is not a regular file")
        | .failed .noent => throw (.fileNotFound s!"file '{acc.showPath path}' does not exist")
        | .failed e => throw (.sysError e s!"opening '{acc.showPath path}'")
        | .symlinkNotAllowed _ => throw .gone
        | .sysError code => throw (.sysError (.other code) "getting status")

/-- `openSubdirectory`. -/
def openSubdirectory (a : Nat) (path : NodePath) : AccessM Nat := do
  let acc ← getAccessor a
  if path = [] then do
    match ← reopen d acc.dirFd with
    | .error e => throw (.sysError e s!"opening directory '{acc.showPath path}'")
    | .ok i => pure i
  else do
    match ← openParentAndUpsert d haveOpenat2 a path false with
    | none => throw .gone
    | some parentFd => do
        match ← openLastAt d haveOpenat2 acc parentFd path directoryFlags with
        | .fd i => pure i
        | .failed .notdir =>
            throw (.notADirectory s!"'{acc.showPath path}' is not a directory")
        | .failed e => throw (.sysError e s!"opening directory '{acc.showPath path}'")
        | .symlinkNotAllowed _ => throw .gone
        | .sysError code => throw (.sysError (.other code) "getting status")

/-- The handler of `readDirectory` and `readLink`. -/
def isASymlink (acc : AccessorBase) : AccessError → AccessError
  | .symlinkNotAllowed path _ =>
      .symlinkNotAllowed path s!"path '{acc.showPath path}' is a symlink"
  | e => e

/-- `readDirectory`: the entries and their types. -/
def readDirectory (a : Nat) (path : NodePath) :
    AccessM (List (Bytes × SourceAccessor.NodeType)) := do
  let acc ← getAccessor a
  mapError (isASymlink acc) do
    let i ← openSubdirectory d haveOpenat2 a path
    match ← readdir d i with
    | some entries => pure entries
    | none => throw (.sysError .notdir s!"reading directory '{acc.showPath path}'")

/-- `readLink`. -/
def readLink (a : Nat) (path : NodePath) : AccessM Bytes := do
  let acc ← getAccessor a
  mapError (isASymlink acc) do
    if path = [] then throw (.notASymlink s!"file '{acc.showPath path}' is not a symlink")
    else do
      match ← openParentAndUpsert d haveOpenat2 a path false with
      | none => throw .gone
      | some parentFd => do
          match ← readlinkat d parentFd (baseName path) with
          | .error e => do
              let dir ← descriptorToPath d parentFd
              throw (.sysError e s!"reading symbolic link {pathFmt (below dir [baseName path])}")
          | .ok (some target) => pure target
          | .ok none => throw (.notASymlink s!"file '{acc.showPath path}' is not a symlink")

-- ============================================================================
-- Whole uses
-- ============================================================================

/-- What is done with the accessors of a process. -/
inductive Act where
  /-- `makeFSSourceAccessor` of a directory. -/
  | make (dirFd : Nat) (displayPrefix : Bytes) (trackLastModified : Bool) (dirFdCacheSize : Nat)
  | maybeLstat (a : Nat) (path : NodePath)
  | readFile (a : Nat) (path : NodePath)
  | readDirectory (a : Nat) (path : NodePath)
  | readLink (a : Nat) (path : NodePath)
  | getLastModified (a : Nat)
  /-- `readDirectory` with a callback: the accessor that the callback gets. -/
  | enter (a : Nat) (path : NodePath)
  /-- The callback returns, and its accessor goes out of scope. -/
  | leave (sub a : Nat)
  | invalidateCache (a : Nat)
  /-- The destructor. -/
  | destroy (a : Nat)
deriving DecidableEq

inductive Answer where
  | unit
  | accessor (a : Nat)
  | stat (st : Option Stat)
  | contents (data : Bytes)
  | entries (l : List (Bytes × SourceAccessor.NodeType))
  | lastModified (mtime : Option Int)
deriving DecidableEq

/-- A new accessor. -/
def add (acc : Accessor) : AccessM Nat := fun p =>
  .ok p.accessors.length { p with accessors := p.accessors ++ [some acc] }

/-- `invalidateCache`. -/
def invalidateCache (a : Nat) : AccessM Unit :=
  modify fun p =>
    { p.adjust a Accessor.emptied with
      globalDirFdCount := p.globalDirFdCount - ((p.accessor a).map Accessor.cached).getD 0 }

/-- An accessor is gone. -/
def drop (a : Nat) : AccessM Unit :=
  modify fun p => { p with accessors := p.accessors.modify a fun _ => none }

/-- The destructor. -/
def destroy (a : Nat) : AccessM Unit := do
  invalidateCache a
  drop a

/-- One action. -/
def perform : Act → AccessM Answer
  | .make dirFd displayPrefix trackLastModified dirFdCacheSize => do
      let a ← add {
        dirFd, displayPrefix, trackLastModified
        dirFdCache := if dirFdCacheSize = 0 then none else some (.empty dirFdCacheSize)
        mtime := 0 }
      pure (.accessor a)
  | .maybeLstat a path => return .stat (← maybeLstat d haveOpenat2 a path)
  | .readFile a path => return .contents (← readFile d haveOpenat2 a path)
  | .readDirectory a path => return .entries (← readDirectory d haveOpenat2 a path)
  | .readLink a path => return .contents (← readLink d haveOpenat2 a path)
  | .getLastModified a => do
      let acc ← getAccessor a
      pure (.lastModified (if acc.trackLastModified then some acc.mtime else none))
  | .enter a path => do
      let acc ← getAccessor a
      let dirFd ← openSubdirectory d haveOpenat2 a path
      let sub ← add {
        dirFd
        displayPrefix := below acc.displayPrefix path
        dirFdCache := none
        trackLastModified := acc.trackLastModified
        mtime := 0 }
      pure (.accessor sub)
  | .leave sub a => do
      let acc ← getAccessor sub
      maybeUpdateMtime a acc.mtime
      destroy sub
      pure .unit
  | .invalidateCache a => do
      invalidateCache a
      pure .unit
  | .destroy a => do
      destroy a
      pure .unit

/-- One action after another: the answers, and what is left. -/
def performAll : List Act → Process → List (Except AccessError Answer) × Process
  | [], p => ([], p)
  | act :: rest, p =>
      match perform d haveOpenat2 act p with
      | .ok answer p => let (answers, p) := performAll rest p; (.ok answer :: answers, p)
      | .error e p => let (answers, p) := performAll rest p; (.error e :: answers, p)

/-- No accessor yet. -/
def Process.start (globalFdLimit : Nat) : Process where
  accessors := []
  globalDirFdCount := 0
  globalFdLimit := globalFdLimit
  time := 0

/-- The same without caches. -/
def Act.uncached : Act → Act
  | .make dirFd displayPrefix trackLastModified _ => .make dirFd displayPrefix trackLastModified 0
  | act => act

end PosixAccessor
end NixStore
