/-
  NixStore.Store.CollectGarbage

  `LocalStore::collectGarbage` (`libstore/gc.cc`), with `computeFSClosure` of
  `libstore/misc.cc`.

  The locks and the server are modelled as far as they let others in
  (`NixStore.Store.Roots`).  A search queues every store path at most once, so
  the number of store paths bounds it.  The statistics of the pass over `.links`
  are left out.
-/

import NixStore.Store.Roots

namespace NixStore

open Effect OrderedSet Wire

/-- `GCAction`. -/
inductive GCAction where
  | gcReturnLive
  | gcReturnDead
  | gcDeleteDead
  | gcDeleteSpecific
deriving DecidableEq

/-- `GCOptions::GCPaths`. -/
inductive GCPaths where
  | wholeStore
  | specificPaths (paths : Finset StorePath) (deleteReferrers : Bool)
deriving DecidableEq

/-- `GCOptions`. -/
structure GCOptions where
  action : GCAction := .gcDeleteDead
  ignoreLiveness : Bool := false
  pathsToDelete : GCPaths := .wholeStore
  maxFreed : UInt64 := 0xffffffffffffffff

/-- `GCSettings`, as far as a collection depends on them. -/
structure GCSettings where
  keepOutputs : Bool := false
  keepDerivations : Bool := true

/-- A bound on the number of store paths: each character of a base name is one
    of 256, or missing. -/
def StorePath.limit : Nat := (256 + 1) ^ (hashLen + 1 + maxPathLen)

namespace GCOptions

/-- `shouldDelete`. -/
def shouldDelete (options : GCOptions) : Bool :=
  options.action = .gcDeleteDead ∨ options.action = .gcDeleteSpecific

/-- Whether there is nothing to delete. -/
def nothingToDelete (options : GCOptions) : Bool :=
  match options.pathsToDelete with
  | .wholeStore => false
  | .specificPaths paths _ => paths = ∅

/-- Whether a path may only be deleted when it has been asked for, and has not
    been. -/
def excluded (options : GCOptions) (path : StorePath) : Bool :=
  match options.pathsToDelete with
  | .wholeStore => false
  | .specificPaths paths deleteReferrers => deleteReferrers = false ∧ path ∉ paths

/-- `includeDerivers`. -/
def includeDerivers (options : GCOptions) (settings : GCSettings) : Bool :=
  options.pathsToDelete = .wholeStore ∧ settings.keepDerivations

/-- Whether a search visits the derivers of a path. -/
def visitDerivers (options : GCOptions) (settings : GCSettings) : Bool :=
  options.pathsToDelete = .wholeStore ∧ settings.keepOutputs

end GCOptions

namespace Collecting

variable (store : StoreDirConfig) (env : Surroundings)

-- ============================================================================
-- Closures
-- ============================================================================

/-- `queryDeps` of `computeFSClosure`, without `flipDirection`. -/
def queryDeps (includeDerivers : Bool) (path : StorePath) : CollectM (Finset StorePath) := do
  let info ← onStore env (LocalStore.queryPathInfo store path)
  let res := info.references.erase path
  match info.deriver with
  | none => pure res
  | some deriver =>
      if includeDerivers then
        if ← onStore env (LocalStore.isValidPath store deriver) then pure (insert deriver res)
        else pure res
      else pure res

/-- The workers of `computeClosure` that are still in flight after an error. -/
def drain (getEdges : StorePath → CollectM (Finset StorePath)) (todo : List StorePath) :
    CollectM Unit :=
  (todo.take 1023).forM fun path => orCatch (fun _ => true) (do let _ ← getEdges path; pure ())

/-- The workers of `computeClosure`, one after another. -/
def closureWorkers (getEdges : StorePath → CollectM (Finset StorePath)) :
    Nat → Finset StorePath → List StorePath → CollectM (Finset StorePath)
  | _, res, [] => pure res
  | 0, res, _ :: _ => pure res
  | bound + 1, res, path :: todo => fun s =>
      match getEdges path s with
      | .ok edges s' =>
          closureWorkers getEdges bound (res ∪ edges) (todo ++ inOrder (edges \ res)) s'
      | .error e s' => (do drain getEdges todo; throw e) s'

/-- `computeFSClosure` of one path. -/
def computeFSClosure (path : StorePath) (includeDerivers : Bool) : CollectM (Finset StorePath) :=
  closureWorkers (queryDeps store env includeDerivers) (StorePath.limit + 1) {path} [path]

-- ============================================================================
-- The search for referrers
-- ============================================================================

variable (options : GCOptions) (settings : GCSettings)

/-- `catch (InvalidPath &)`. -/
def isInvalidPath : GCThrow → Bool
  | .error (.invalidPath _) => true
  | _ => false

/-- `catch (PathInUse &)`. -/
def isPathInUse : GCThrow → Bool
  | .error (.pathInUse _) => true
  | _ => false

/-- A path is alive. -/
def addAlive (paths : Finset StorePath) : CollectM Unit :=
  update fun s => { s with alive := paths ∪ s.alive }

/-- `markAlive`. -/
def markAlive (path : StorePath) : CollectM Unit := do
  addAlive {path}
  orCatch isInvalidPath do
    let closure ← computeFSClosure store env path (options.includeDerivers settings)
    addAlive closure

/-- What a visit of a path leads to: the search is given up, or further paths
    are queued, a set at a time. -/
inductive Visit where
  | giveUp
  | enqueue (sets : List (Finset StorePath))

/-- The referrers of a path, from `referrersCache` or from the database. -/
def cachedReferrers (path : StorePath) : CollectM (Finset StorePath) := do
  let s ← get
  match s.referrersCache path with
  | some referrers => pure referrers
  | none =>
      let referrers ← onStore env
        (LocalStore.onDb fun db => (LocalStore.queryReferrers store db path).map (·, db))
      update fun s => { s with referrersCache := Function.update s.referrersCache path (some referrers) }
      pure referrers

/-- The paths that a search goes on to from a path. -/
def nextPaths (path : StorePath) : CollectM (List (Finset StorePath)) := do
  if ← onStore env (LocalStore.isValidPath store path) then
    let referrers ← cachedReferrers store env path
    if options.visitDerivers settings then
      let derivers ← onStore env
        (LocalStore.onDb fun db => (LocalStore.queryValidDerivers store db path).map (·, db))
      pure [referrers, derivers]
    else pure [referrers]
  else pure []

/-- The look at the temporary roots in the search: whether the path is one. -/
def checkTempRoot (path : StorePath) : CollectM Bool := do
  interfere env
  let s ← get
  if path.hashPart ∈ s.tempRoots then pure true
  else do
    update fun s => { s with pending := some path.hashPart, passed := insert path s.passed }
    pure false

/-- The body of the loop of the search. -/
def visitPath (start path : StorePath) : CollectM Visit := do
  let s ← get
  if path ∈ s.alive then
    addAlive {start}
    pure .giveUp
  else if path ∈ s.dead then pure (.enqueue [])
  else if path ∈ s.roots then
    addAlive {start}
    markAlive store env options settings path
    pure .giveUp
  else if options.excluded path then pure .giveUp
  else if ← checkTempRoot env path then
    addAlive {start}
    markAlive store env options settings path
    pure .giveUp
  else do
    let sets ← nextPaths store env options settings path
    pure (.enqueue sets)

/-- `enqueue` of all the paths in a set: the visited paths and the queue. -/
def enqueueSet (paths : Finset StorePath) (visited : Finset StorePath) (todo : List StorePath) :
    Finset StorePath × List StorePath :=
  (visited ∪ paths, todo ++ inOrder (paths \ visited))

/-- `enqueue` of several sets. -/
def enqueueSets : List (Finset StorePath) → Finset StorePath → List StorePath →
    Finset StorePath × List StorePath
  | [], visited, todo => (visited, todo)
  | paths :: rest, visited, todo =>
      enqueueSets rest (enqueueSet paths visited todo).1 (enqueueSet paths visited todo).2

/-- The loop of the search: the visited paths, unless it is given up. -/
def search (start : StorePath) :
    Nat → Finset StorePath → List StorePath → CollectM (Option (Finset StorePath))
  | _, visited, [] => pure (some visited)
  | 0, visited, _ :: _ => pure (some visited)
  | bound + 1, visited, path :: todo => do
      match ← visitPath store env options settings start path with
      | .giveUp => pure none
      | .enqueue sets =>
          search start bound (enqueueSets sets visited todo).1 (enqueueSets sets visited todo).2

-- ============================================================================
-- Deletion
-- ============================================================================

/-- `deleteStorePath(realPath, bytesFreed, …)`. -/
def deleteStorePath (baseName : Bytes) : CollectM Unit := do
  interfere env
  update fun s =>
    { s with
      files := if h : invalidName baseName then s.files else s.files.erase ⟨baseName, h⟩
      removals := s.removals ++ [(baseName, s.db)] }

/-- Whether an entry is a temporary directory that may be in use. -/
def lockedTempDir (baseName : Bytes) : Bool :=
  (ascii "tmp-").isPrefixOf baseName && !env.lockable baseName

/-- `deleteFromStore`. -/
def deleteFromStore (baseName : Bytes) : CollectM Unit :=
  if lockedTempDir env baseName then pure ()
  else do
    update fun s => { s with results :=
      { s.results with paths := insert (store.text ++ ascii "/" ++ baseName) s.results.paths } }
    deleteStorePath env baseName
    update fun s => { s with results :=
      { s.results with bytesFreed := s.results.bytesFreed + env.freed baseName } }
    let s ← get
    if s.results.bytesFreed > options.maxFreed then throw .limitReached

/-- `invalidatePathChecked(path)`. -/
def invalidate (path : StorePath) : CollectM Unit := do
  interfere env
  let s ← get
  callStore (LocalStore.invalidatePathChecked store path)
  update fun t => { t with removals := t.removals ++ [(path.baseName, s.db)] }

/-- What is done with a path that is not a root. -/
def deleteUnused (path : StorePath) : CollectM Unit :=
  orCatch isPathInUse do
    invalidate store env path
    deleteFromStore store env options path.baseName
    update fun s => { s with referrersCache := Function.update s.referrersCache path none }

/-- The second look at the temporary roots: whether the path has become one. -/
def recheckTempRoot (path : StorePath) : CollectM Bool := do
  let s ← get
  if path.hashPart ∈ s.tempRoots then pure true
  else do
    update fun s => { s with pending := some path.hashPart }
    pure false

/-- The body of the loop over the visited paths.  That others have their turn
    before the path is put into `dead`, and not after, makes no difference to
    them. -/
def deleteVisited (path : StorePath) : CollectM Unit := do
  interfere env
  let s ← get
  if path ∈ s.dead then pure ()
  else do
    update fun s => { s with dead := insert path s.dead }
    if options.shouldDelete then
      update fun s => { s with passed := s.passed.erase path }
      if ← recheckTempRoot path then markAlive store env options settings path
      else atEnd (fun s => { s with pending := none }) (deleteUnused store env options path)

/-- The children of a path in `topoSortPaths`. -/
def pathReferences (path : StorePath) : CollectM (List StorePath) :=
  onStore env (LocalStore.pathReferences store path)

/-- `topoSortPaths`. -/
def topoSortPaths (paths : Finset StorePath) : CollectM (List StorePath) := do
  match ← TopoSort.topoSort paths (pathReferences store env) with
  | .error c => throw (.error (LocalStore.cycleError store c))
  | .ok sorted => pure sorted

/-- `maybeDeleteReferrersClosure`. -/
def maybeDeleteReferrersClosure (start : StorePath) : CollectM Unit :=
  atEnd (fun s => { s with pending := none }) do
    update fun s => { s with passed := ∅ }
    match ← search store env options settings start (StorePath.limit + 1) {start} [start] with
    | none => pure ()
    | some visited =>
        let sorted ← topoSortPaths store env visited
        sorted.forM (deleteVisited store env options settings)

-- ============================================================================
-- The collector
-- ============================================================================

/-- The exception of `gcDeleteSpecific`. -/
def stillAlive (path : StorePath) : Error :=
  .error (s!"Cannot delete path '{showBytes (store.printStorePath path)}' since it is still alive. " ++
    "To find out why, use: nix-store --query --roots and nix-store --query --referrers")

/-- The body of the loop over the paths to delete. -/
def deleteSpecific (path : StorePath) : CollectM Unit := do
  maybeDeleteReferrersClosure store env options settings path
  let s ← get
  if options.action = .gcDeleteSpecific ∧ path ∉ s.dead then throw (.error (stillAlive store path))

/-- `linksDir.filename()`. -/
def linksName : Bytes := ascii ".links"

/-- The body of the loop over the store directory. -/
def deleteEntry (name : Bytes) : CollectM Unit :=
  if name = ascii "." ∨ name = ascii ".." ∨ name = linksName then pure ()
  else
    match store.maybeParseStorePath (store.text ++ ascii "/" ++ name) with
    | some storePath => maybeDeleteReferrersClosure store env options settings storePath
    | none => deleteFromStore store env options name

/-- What is deleted: all garbage, or the specified paths. -/
def deletePaths : CollectM Unit :=
  match options.pathsToDelete with
  | .specificPaths paths _ => (inOrder paths).forM (deleteSpecific store env options settings)
  | .wholeStore =>
      if options.maxFreed = 0 then pure ()
      else if options.action = .gcDeleteSpecific then
        throw (.error (.error "Cannot delete the entire store"))
      else env.readdir.forM (deleteEntry store env options settings)

/-- The body of the loop over `.links`. -/
def deleteLink (name : Bytes) : CollectM Unit :=
  if name = ascii "." ∨ name = ascii ".." ∨ env.nlink name ≠ 1 then pure ()
  else do
    interfere env
    update fun s =>
      { s with links := if h : invalidName name then s.links else s.links.erase ⟨name, h⟩ }

/-- Paths as the results have them. -/
def printStorePathSet (paths : Finset StorePath) : Finset Bytes :=
  paths.image store.printStorePath

/-- What `collectGarbage` does behind the deletion. -/
def finish : CollectM Unit :=
  match options.action with
  | .gcReturnLive => update fun s =>
      { s with results :=
        { s.results with paths := printStorePathSet store s.alive ∪ s.results.paths } }
  | .gcReturnDead => update fun s =>
      { s with results :=
        { s.results with paths := printStorePathSet store s.dead ∪ s.results.paths } }
  | .gcDeleteDead | .gcDeleteSpecific => env.readdirLinks.forM (deleteLink env)

/-- `catch (GCLimitReached &)`. -/
def isLimitReached : GCThrow → Bool
  | .limitReached => true
  | _ => false

/-- `LocalStore::collectGarbage`. -/
def collectGarbage : CollectM Unit :=
  if options.nothingToDelete then pure ()
  else do
    findAllRoots store env options.ignoreLiveness
    orCatch isLimitReached (deletePaths store env options settings)
    finish store env options

end Collecting
end NixStore
