/-
  NixStore.Store.Roots

  The state of a garbage collection, and how it finds its roots (`findRoots`,
  `findRuntimeRoots` and `findTempRoots` of `libstore/gc.cc`).

  Other processes run between any two accesses of the collector to what it
  shares with them, and so does the collector's own server, through which
  clients send temporary roots (`interfere`).  What they do is a function of
  the whole state, so that a statement about every such function is one about
  every interleaving.  I/O errors are left out.
-/

import NixStore.Store.AddToStore

namespace NixStore

open Effect OrderedSet Wire

/-- What is at a path outside of the store directory, as far as the search for
    roots distinguishes it. -/
inductive RootFile where
  | symlink (target : Bytes)
  | regular
  | other
deriving DecidableEq

/-- What a collector shares with other processes and with its server. -/
structure World where
  db : Db
  /-- The store directory, without `.links`. -/
  files : Finmap fun _ : FileName => File
  /-- The names in `.links`. -/
  links : Finset FileName
  /-- What is at the paths outside of the store directory. -/
  outside : List Bytes → Option RootFile
  /-- `Shared::tempRoots`: the hash parts of the temporary roots. -/
  tempRoots : Finset Bytes

/-- `GCResults`. -/
structure GCResults where
  paths : Finset Bytes
  bytesFreed : UInt64

/-- The state of a collection: the world, the path-info cache of the process,
    and the variables of `collectGarbage`. -/
structure Collecting extends World where
  pathInfoCache : LruCache StorePath (Option ValidPathInfo)
  /-- `Shared::pending`. -/
  pending : Option Bytes
  roots : Finset StorePath
  alive : Finset StorePath
  dead : Finset StorePath
  referrersCache : StorePath → Option (Finset StorePath)
  results : GCResults
  /-- How often others have had their turn. -/
  turns : Nat
  /-- The paths that the current search has found not to be temporary roots,
      and whose temporary roots it has not looked at again.  No program reads
      this: it says when a root comes too late. -/
  passed : Finset StorePath
  /-- What has been invalidated or deleted, each with the database before.  No
      program reads this either. -/
  removals : List (Bytes × Db)

/-- What a collection may be ended by. -/
inductive GCThrow where
  | error (e : Error)
  /-- `GCLimitReached`. -/
  | limitReached
deriving DecidableEq

abbrev CollectM := EStateM GCThrow Collecting

/-- A file in `temproots`. -/
structure TempRootsFile where
  name : Bytes
  /-- Whether the collector gets the lock: its owner has died. -/
  stale : Bool
  contents : Bytes

/-- What the collector gets from the kernel. -/
structure Surroundings where
  /-- What has become of the world when the collector goes on. -/
  others : Collecting → World
  /-- The paths below `gcroots` and `profiles` in the order of the walk through
      them, without the directories. -/
  rootPaths : List (List Bytes)
  /-- `gcroots/auto`. -/
  autoDir : List Bytes
  /-- `findRuntimeRootsUnchecked`. -/
  runtimeRoots : List StorePath
  tempRootsFiles : List TempRootsFile
  /-- The names that `readdir` returns for the store directory. -/
  readdir : List Bytes
  /-- Whether an entry can be opened as a directory and locked. -/
  lockable : Bytes → Bool
  /-- How many bytes are freed when an entry is deleted. -/
  freed : Bytes → UInt64
  /-- The names that `readdir` returns for `.links`. -/
  readdirLinks : List Bytes
  /-- The link count of an entry of `.links`. -/
  nlink : Bytes → Nat

-- ============================================================================
-- Paths in the store
-- ============================================================================

/-- The elements of an absolute `std::filesystem::path` behind its root
    directory: a trailing slash is followed by an empty one. -/
def pathElements (path : Bytes) : List Bytes :=
  let names := (path.splitOn 0x2f).filter (· ≠ [])
  if path.getLast? = some 0x2f ∧ names ≠ [] then names ++ [[]] else names

/-- `isInDir`, for a canonical directory. -/
def isInDir (path : Bytes) (dir : List Bytes) : Bool :=
  path.head? = some 0x2f && dir.isPrefixOf (pathElements path) &&
    match (pathElements path).drop dir.length with
    | [] => false
    | first :: _ => first ≠ [] && first ≠ ascii "." && first ≠ ascii ".."

/-- `absPath` of the target of a link in a directory, without resolving it. -/
def absPath (path : Bytes) (dir : List Bytes) : Except Error (List Bytes) :=
  if path.head? = some 0x2f then canonPath path
  else canonPath (renderPath dir ++ ascii "/" ++ path)

namespace StoreDir

variable (dir : StoreDir)

/-- `StoreDirConfig::isInStore`. -/
def isInStore (path : Bytes) : Bool := isInDir path dir.comps

/-- `StoreDirConfig::maybeParseStorePath`. -/
def maybeParseStorePath (path : Bytes) : Option StorePath := (dir.parseStorePath path).toOption

/-- The first component of `StoreDirConfig::toStorePath`. -/
def toStorePath (path : Bytes) : Except Error StorePath := do
  throwIf (dir.isInStore path = false) (.error s!"path '{showBytes path}' is not in the Nix store")
  let start := dir.text.length + 1
  dir.parseStorePath (path.take start ++ (path.drop start).takeWhile (· ≠ 0x2f))

end StoreDir

namespace Collecting

variable (store : StoreDirConfig) (env : Surroundings)

-- ============================================================================
-- Steps
-- ============================================================================

/-- The state in which `collectGarbage` starts. -/
def start (w : World) (pathInfoCache : LruCache StorePath (Option ValidPathInfo)) : Collecting where
  toWorld := w
  pathInfoCache := pathInfoCache
  pending := none
  roots := ∅
  alive := ∅
  dead := ∅
  referrersCache := fun _ => none
  results := { paths := ∅, bytesFreed := 0 }
  turns := 0
  passed := ∅
  removals := []

/-- The store as the collector's process sees it. -/
def toLocalStore (s : Collecting) : LocalStore where
  db := s.db
  pathInfoCache := s.pathInfoCache

/-- Put it back. -/
def setLocalStore (t : LocalStore) (s : Collecting) : Collecting :=
  { s with db := t.db, pathInfoCache := t.pathInfoCache }

/-- The others have their turn. -/
def afterOthers (s : Collecting) : Collecting :=
  { s with toWorld := env.others s, turns := s.turns + 1 }

/-- Let the others go on. -/
def interfere : CollectM Unit := modify (afterOthers env)

/-- Change the state. -/
def update (f : Collecting → Collecting) : CollectM Unit := modify f

/-- Throw what a computation throws. -/
def orThrow {α : Type} (x : Except Error α) : CollectM α := fun s =>
  match x with
  | .ok a => .ok a s
  | .error e => .error (.error e) s

/-- What a call of the store does. -/
def callStore {α : Type} (x : StoreM α) : CollectM α := fun s =>
  match x s.toLocalStore with
  | .ok a t => .ok a (s.setLocalStore t)
  | .error e t => .error (.error e) (s.setLocalStore t)

/-- A call of the store. -/
def onStore {α : Type} (x : StoreM α) : CollectM α := do
  interfere env
  callStore x

/-- `try { … } catch (…)` for the exceptions with a property. -/
def orCatch (caught : GCThrow → Bool) (x : CollectM Unit) : CollectM Unit := fun s =>
  match x s with
  | .ok () s' => .ok () s'
  | .error e s' => if caught e then .ok () s' else .error e s'

/-- `Finally`. -/
def atEnd (f : Collecting → Collecting) (x : CollectM Unit) : CollectM Unit := fun s =>
  match x s with
  | .ok () s' => .ok () (f s')
  | .error e s' => .error e (f s')

-- ============================================================================
-- Roots
-- ============================================================================

/-- A path becomes a root. -/
def addRoot (path : StorePath) : CollectM Unit :=
  update fun s => { s with roots := insert path s.roots }

/-- The same, if it is valid. -/
def addRootIfValid (path : StorePath) : CollectM Unit := do
  if ← onStore env (LocalStore.isValidPath store path) then addRoot path

/-- `foundRoot`. -/
def foundRoot (target : Bytes) : CollectM Unit :=
  match store.toStorePath target with
  | .ok path => addRootIfValid store env path
  | .error (.badStorePath _) => pure ()
  | .error e => throw (.error e)

/-- What `findRoots` does with a link that does not point into the store. -/
def findIndirectRoot (path target : List Bytes) : CollectM Unit := do
  interfere env
  let s ← get
  match s.outside target with
  | none =>
      if isInDir (renderPath path) env.autoDir then
        update fun s => { s with outside := Function.update s.outside path none }
  | some (.symlink target2) => if store.isInStore target2 then foundRoot store env target2
  | _ => pure ()

/-- `LocalStore::findRoots` of a path that is not a directory. -/
def findRoot (path : List Bytes) : CollectM Unit := do
  interfere env
  let s ← get
  match s.outside path with
  | some (.symlink target) =>
      if store.isInStore target then foundRoot store env target
      else do
        let target ← orThrow (absPath target path.dropLast)
        findIndirectRoot store env path target
  | some .regular =>
      match store.maybeParseStorePath (store.text ++ ascii "/" ++ path.getLastD []) with
      | some storePath => addRootIfValid store env storePath
      | none => pure ()
  | _ => pure ()

/-- `LocalStore::findRootsNoTemp`, with `findRuntimeRoots`. -/
def findRootsNoTemp : CollectM Unit := do
  env.rootPaths.forM (findRoot store env)
  env.runtimeRoots.forM (addRootIfValid store env)

/-- The strings of a temporary roots file. -/
def nulTerminated (contents : Bytes) : List Bytes := (contents.splitOn 0).dropLast

/-- The roots of one file that `LocalStore::findTempRoots` finds. -/
def tempRootsOf (file : TempRootsFile) : Except Error (List StorePath) :=
  if file.name.head? = some 0x2e ∨ file.stale = true then .ok []
  else (nulTerminated file.contents).mapM store.parseStorePath

/-- `LocalStore::findTempRoots`. -/
def findTempRoots : Except Error (List StorePath) := do
  let roots ← env.tempRootsFiles.mapM (tempRootsOf store)
  pure roots.flatten

/-- A temporary root that was there before the collector. -/
def addTempRoot (path : StorePath) : CollectM Unit := do
  interfere env
  update fun s =>
    { s with tempRoots := insert path.hashPart s.tempRoots, roots := insert path s.roots }

/-- What `collectGarbage` does to find the roots. -/
def findAllRoots (ignoreLiveness : Bool) : CollectM Unit := do
  if ignoreLiveness = false then findRootsNoTemp store env
  let tempRoots ← orThrow (findTempRoots store env)
  tempRoots.forM (addTempRoot env)

end Collecting
end NixStore
