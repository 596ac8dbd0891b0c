/-
  NixStore.Store.LocalStore

  The local store: the database and the path-info cache in front of it
  (`libstore/local-store.cc`, `libstore/store-api.cc`, and `topoSortPaths` of
  `libstore/misc.cc`).

  Operations run in a state that survives an exception; only the database is
  put back when a transaction is not committed (`withTxn`).  SQLite's busy
  errors, on which the operations are retried, are left out.
-/

import NixStore.Store.Db
import NixStore.Store.PathInfo
import NixStore.Util.LruCache
import NixStore.Util.TopoSort

namespace NixStore

open Effect OrderedSet Wire

/-- `LocalStore`, as far as its state is in the database and the cache.  A
    cached `none` says that the path is known to be invalid. -/
structure LocalStore where
  db : Db
  pathInfoCache : LruCache StorePath (Option ValidPathInfo)

/-- What runs on the store. -/
abbrev StoreM := EStateM Error LocalStore

namespace LocalStore

/-- A new store over an empty database. -/
def fresh (pathInfoCacheSize : Nat) : LocalStore where
  db := Db.empty
  pathInfoCache := LruCache.empty pathInfoCacheSize

/-- Run a query or an update on the database. -/
def onDb {α : Type} (f : Db → Except Error (α × Db)) : StoreM α := fun s =>
  match f s.db with
  | .ok (a, db) => .ok a { s with db }
  | .error e => .error e s

/-- `SQLiteTxn`: what is not committed is rolled back. -/
def withTxn {α : Type} (x : StoreM α) : StoreM α := fun s =>
  match x s with
  | .ok a s' => .ok a s'
  | .error e s' => .error e { s' with db := s.db }

/-- A `const char *` as a string: up to the first NUL. -/
def cString (s : Bytes) : Bytes := s.takeWhile (· ≠ 0)

variable (store : StoreDirConfig)

/-! ## Reading -/

/-- `LocalStore::isValidPath_`. -/
def isValidPath_ (path : StorePath) : StoreM Bool := fun s =>
  .ok (s.db.queryPathInfo (store.printStorePath path)).isSome s

/-- `LocalStore::queryValidPathId`. -/
def queryValidPathId (path : StorePath) : StoreM Nat := fun s =>
  match s.db.queryPathInfo (store.printStorePath path) with
  | none => .error (.invalidPath s!"path '{showBytes (store.printStorePath path)}' is not valid") s
  | some row => .ok row.id s

/-- The set of the paths in a column. -/
def readStorePaths : List Bytes → Except Error (Finset StorePath)
  | [] => .ok ∅
  | t :: ts => do
      let path ← store.parseStorePath (cString t)
      let paths ← readStorePaths ts
      pure (insert path paths)

/-- The `hash` column of a row. -/
def readNarHash (path : StorePath) (hash : Bytes) : Except Error Hash :=
  match Hash.parseAnyPrefixed (cString hash) with
  | .error (.badHash msg) => .error (.error
      s!"invalid-path entry for '{showBytes (store.printStorePath path)}': {msg}")
  | r => r

/-- The `deriver` column of a row. -/
def readDeriver : Option Bytes → Except Error (Option StorePath)
  | none => .ok none
  | some s => (store.parseStorePath (cString s)).map some

/-- The `sigs` column of a row. -/
def readSigs : Option Bytes → Except Error (Finset Signature)
  | none => .ok ∅
  | some s => Signature.parseMany (tokenizeString (cString s) 0x20)

/-- The `ca` column of a row. -/
def readCa : Option Bytes → Except Error (Option ContentAddress)
  | none => .ok none
  | some s => ContentAddress.parseOpt (cString s)

/-- `LocalStore::queryPathInfoInternal`. -/
def queryPathInfoInternal (db : Db) (path : StorePath) : Except Error (Option ValidPathInfo) :=
  match db.queryPathInfo (store.printStorePath path) with
  | none => .ok none
  | some row => do
      let narHash ← readNarHash store path row.hash
      let deriver ← readDeriver store row.deriver
      let sigs ← readSigs row.sigs
      let ca ← readCa row.ca
      let references ← readStorePaths store (db.queryReferences row.id)
      pure (some
        { path, deriver, narHash, references, sigs, ca
          registrationTime := row.registrationTime
          narSize := row.narSize.getD 0
          ultimate := row.ultimate.getD 0 = 1 })

/-- `LocalStore::queryReferrers`. -/
def queryReferrers (db : Db) (path : StorePath) : Except Error (Finset StorePath) :=
  readStorePaths store (db.queryReferrers (store.printStorePath path))

/-- `LocalStore::queryValidDerivers`. -/
def queryValidDerivers (db : Db) (path : StorePath) : Except Error (Finset StorePath) :=
  readStorePaths store (db.queryValidDerivers (store.printStorePath path))

/-- `pathInfoCache->lock()->get(storePath)`. -/
def cacheGet (path : StorePath) : StoreM (Option (Option ValidPathInfo)) := fun s =>
  .ok (s.pathInfoCache.get path).1 { s with pathInfoCache := (s.pathInfoCache.get path).2 }

/-- `pathInfoCache->lock()->upsert(storePath, …)`. -/
def cacheUpsert (path : StorePath) (value : Option ValidPathInfo) : StoreM Unit := fun s =>
  .ok () { s with pathInfoCache := s.pathInfoCache.upsert path value }

/-- `Store::isValidPath`. -/
def isValidPath (path : StorePath) : StoreM Bool := do
  match ← cacheGet path with
  | some value => pure value.isSome
  | none => isValidPath_ store path

/-- `Store::MissingName`. -/
def missingName : Bytes := ascii "x"

/-- `goodStorePath`. -/
def goodStorePath (expected actual : StorePath) : Bool :=
  expected.hashPart = actual.hashPart &&
    (expected.name = missingName || expected.name = actual.name)

/-- The exception of `queryPathInfo`. -/
def invalidPath (path : StorePath) : Error :=
  .invalidPath s!"path '{showBytes (store.printStorePath path)}' is not valid"

/-- The answer to `queryPathInfo` from what the cache or the database has. -/
def answer (path : StorePath) : Option ValidPathInfo → StoreM ValidPathInfo
  | none => throw (invalidPath store path)
  | some info => if goodStorePath path info.path then pure info else throw (invalidPath store path)

/-- `Store::queryPathInfo`, with `queryPathInfoFromClientCache` and
    `queryPathInfoUncached`. -/
def queryPathInfo (path : StorePath) : StoreM ValidPathInfo := do
  match ← cacheGet path with
  | some none => throw (invalidPath store path)
  | some (some info) => pure info
  | none =>
      let info ← onDb fun db => (queryPathInfoInternal store db path).map (·, db)
      cacheUpsert path info
      answer store path info

/-! ## Writing -/

/-- `printStorePath` of an optional path and whether it is there. -/
def deriverColumn (info : ValidPathInfo) : Option Bytes := info.deriver.map store.printStorePath

/-- The `narSize` column: zero is `NULL`. -/
def narSizeColumn (info : ValidPathInfo) : Option UInt64 :=
  if info.narSize ≠ 0 then some info.narSize else none

/-- The `hash` column. -/
def hashColumn (info : ValidPathInfo) : Bytes := info.narHash.toText .base16 true

/-- The `ultimate` column: false is `NULL`. -/
def ultimateColumn (info : ValidPathInfo) : Option Int := if info.ultimate then some 1 else none

/-- The `sigs` column: no signatures are `NULL`. -/
def sigsColumn (info : ValidPathInfo) : Option Bytes :=
  if info.sigs = ∅ then none
  else some (concatStringsSep (ascii " ") (Signature.toStrings info.sigs))

/-- The `ca` column. -/
def caColumn (info : ValidPathInfo) : Option Bytes := info.ca.map ContentAddress.render

/-- The row that `addValidPath` inserts. -/
def columns (now : Int) (info : ValidPathInfo) : PathColumns where
  path := store.printStorePath info.path
  hash := hashColumn info
  registrationTime := if info.registrationTime = 0 then now else info.registrationTime
  deriver := deriverColumn store info
  narSize := narSizeColumn info
  ultimate := ultimateColumn info
  sigs := sigsColumn info
  ca := caColumn info

/-- The check at the start of `addValidPath`. -/
def checkContentAddressed (info : ValidPathInfo) : Except Error Unit :=
  if info.ca = none then .ok ()
  else do
    let res ← info.isContentAddressed store
    throwIf (res = false) (.error (s!"cannot add path '{showBytes (store.printStorePath info.path)}' " ++
      "to the Nix store because it claims to be content-addressed but isn't"))

/-- `LocalStore::addValidPath`, at the time `now`. -/
def addValidPath (now : Int) (info : ValidPathInfo) : StoreM Nat := do
  fromExcept (checkContentAddressed store info)
  onDb fun db => (db.registerValidPath (columns store now info)).map ((), ·)
  let id ← onDb fun db => .ok (db.lastId, db)
  cacheUpsert info.path (some info)
  pure id

/-- `LocalStore::updatePathInfo`. -/
def updatePathInfo (info : ValidPathInfo) : StoreM Unit :=
  onDb fun db => .ok ((), db.updatePathInfo (store.printStorePath info.path) (narSizeColumn info)
    (hashColumn info) (ultimateColumn info) (sigsColumn info) (caColumn info))

/-- The body of the first loop of `registerValidPaths`. -/
def registerInfo (now : Int) (info : ValidPathInfo) : StoreM Unit := do
  fromExcept (throwIf (info.narHash.algo ≠ .sha256)
    (.assertion "i.narHash.algo == HashAlgorithm::SHA256"))
  if ← isValidPath_ store info.path then updatePathInfo store info
  else do
    let _ ← addValidPath store now info
    pure ()

/-- The body of the inner loop of the second one. -/
def addReference (referrer : Nat) (path : StorePath) : StoreM Unit := do
  let reference ← queryValidPathId store path
  onDb fun db => (db.addReference referrer reference).map ((), ·)

/-- The body of the second loop. -/
def addReferences (info : ValidPathInfo) : StoreM Unit := do
  let referrer ← queryValidPathId store info.path
  (inOrder info.references).forM (addReference store referrer)

/-- The children of a path in the sort of `registerValidPaths`. -/
def infoReferences (infos : ValidPathInfos) (path : StorePath) : List StorePath :=
  match infos.find path with
  | none => []
  | some i => inOrder i.references

/-- `std::visit` of what the sort in `registerValidPaths` returns.  The variant is
    no constant there, so that `[](auto &)` is taken for a cycle as well, and not
    the alternative for `const Cycle &`, which would throw. -/
def visitSorted : Except (Cycle StorePath) (List StorePath) → StoreM Unit
  | .error _ => pure ()
  | .ok _ => pure ()

/-- `LocalStore::registerValidPaths`, at the time `now`. -/
def registerValidPaths (now : Int) (infos : ValidPathInfos) : StoreM Unit :=
  withTxn do
    infos.infos.forM (registerInfo store now)
    infos.infos.forM (addReferences store)
    let topoSortResult ← TopoSort.topoSort infos.paths fun path => pure (infoReferences infos path)
    visitSorted topoSortResult

/-- `LocalStore::invalidatePath`. -/
def invalidatePath (path : StorePath) : StoreM Unit := do
  onDb fun db => (db.invalidatePath (store.printStorePath path)).map ((), ·)
  modify fun s => { s with pathInfoCache := s.pathInfoCache.erase path }

/-- The exception of `invalidatePathChecked`. -/
def pathInUse (path : StorePath) (referrers : Finset StorePath) : Error :=
  .pathInUse (s!"cannot delete path '{showBytes (store.printStorePath path)}' because it is in use by " ++
    ", ".intercalate ((inOrder referrers).map fun p =>
      s!"'{showBytes (store.printStorePath p)}'"))

/-- What `invalidatePathChecked` does with a valid path. -/
def invalidateUnused (path : StorePath) : StoreM Unit := do
  let referrers ← onDb fun db => (queryReferrers store db path).map (·, db)
  fromExcept (throwIf (referrers.erase path ≠ ∅) (pathInUse store path (referrers.erase path)))
  invalidatePath store path

/-- `LocalStore::invalidatePathChecked`. -/
def invalidatePathChecked (path : StorePath) : StoreM Unit :=
  withTxn do
    if ← isValidPath_ store path then invalidateUnused store path
    else pure ()

/-! ## Sorting paths -/

/-- `try { … } catch (InvalidPath &)` with a default. -/
def orInvalid {α : Type} (x : StoreM α) (default : α) : StoreM α := fun s =>
  match x s with
  | .error (.invalidPath _) s' => .ok default s'
  | r => r

/-- The exception for a cycle. -/
def cycleError (c : Cycle StorePath) : Error :=
  .error (s!"cycle detected in the references of '{showBytes (store.printStorePath c.path)}' " ++
    s!"from '{showBytes (store.printStorePath c.parent)}'")

/-- Throw if `topoSort` has found a cycle. -/
def sortedOrThrow : Except (Cycle StorePath) (List StorePath) → StoreM (List StorePath)
  | .error c => throw (cycleError store c)
  | .ok sorted => pure sorted

/-- The children of a path in `topoSortPaths`. -/
def pathReferences (path : StorePath) : StoreM (List StorePath) :=
  orInvalid (do
    let info ← queryPathInfo store path
    pure (inOrder info.references)) []

/-- `Store::topoSortPaths`. -/
def topoSortPaths (paths : Finset StorePath) : StoreM (List StorePath) := do
  let r ← TopoSort.topoSort paths (pathReferences store)
  sortedOrThrow store r

end LocalStore
end NixStore
