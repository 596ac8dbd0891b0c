/-
  NixStore.Store.PathInfo

  What the store records about a path (`libstore/path-info.{hh,cc}`).
-/

import NixStore.Lib.SortedMap
import NixStore.Store.ContentAddress
import NixStore.Util.Signature

namespace NixStore

/-- `ValidPathInfo`.  The store directory it also carries is that of the
    store. -/
structure ValidPathInfo where
  path : StorePath
  deriver : Option StorePath
  narHash : Hash
  references : Finset StorePath
  registrationTime : Int
  narSize : UInt64
  ultimate : Bool
  sigs : Finset Signature
  ca : Option ContentAddress
deriving DecidableEq

namespace ValidPathInfo

/-- `ValidPathInfo::contentAddressWithReferences` of an info with a content
    address. -/
def contentAddressWithReferences (info : ValidPathInfo) (ca : ContentAddress) :
    Except Error ContentAddressWithReferences :=
  if ca.method = .text then
    if info.path ∈ info.references then .error (.assertion "references.count(path) == 0")
    else .ok (.text ca.hash info.references)
  else
    .ok (.fixedOutput ca.method.getFileIngestionMethod ca.hash
      { others := info.references.erase info.path, self := info.path ∈ info.references })

/-- `ValidPathInfo::isContentAddressed`. -/
def isContentAddressed (store : StoreDirConfig) (info : ValidPathInfo) : Except Error Bool :=
  match info.ca with
  | none => .ok false
  | some ca => do
      let fullCa ← info.contentAddressWithReferences ca
      let caPath ← store.makeFixedOutputPathFromCA info.path.name fullCa
      pure (caPath = info.path)

/-- The fields that two infos agree on when they say the same about a path;
    the time of the registration is the store's own. -/
structure Same (a b : ValidPathInfo) : Prop where
  path_eq : a.path = b.path
  deriver_eq : a.deriver = b.deriver
  narHash_eq : a.narHash = b.narHash
  references_eq : a.references = b.references
  narSize_eq : a.narSize = b.narSize
  ultimate_eq : a.ultimate = b.ultimate
  sigs_eq : a.sigs = b.sigs
  ca_eq : a.ca = b.ca

theorem Same.refl (a : ValidPathInfo) : Same a a := ⟨rfl, rfl, rfl, rfl, rfl, rfl, rfl, rfl⟩

end ValidPathInfo

/-- `ValidPathInfos`, a map from paths to infos.  Every caller files an info
    under its own path. -/
structure ValidPathInfos where
  infos : List ValidPathInfo
  ascending : (infos.map ValidPathInfo.path).Pairwise (· < ·)

namespace ValidPathInfos

/-- The map with one info. -/
def single (info : ValidPathInfo) : ValidPathInfos where
  infos := [info]
  ascending := List.pairwise_singleton _ _

/-- `infos.find(path)`. -/
def find (infos : ValidPathInfos) (path : StorePath) : Option ValidPathInfo :=
  infos.infos.find? fun i => i.path = path

/-- The keys. -/
def paths (infos : ValidPathInfos) : Finset StorePath :=
  (infos.infos.map ValidPathInfo.path).toFinset

theorem nodup (infos : ValidPathInfos) : (infos.infos.map ValidPathInfo.path).Nodup :=
  infos.ascending.imp fun h => ne_of_lt h

theorem find_eq_some {infos : ValidPathInfos} {path : StorePath} {info : ValidPathInfo} :
    infos.find path = some info ↔ info ∈ infos.infos ∧ info.path = path :=
  SortedMap.find?_key infos.nodup

theorem mem_paths {infos : ValidPathInfos} {path : StorePath} :
    path ∈ infos.paths ↔ ∃ info ∈ infos.infos, info.path = path := by
  rw [paths, List.mem_toFinset, List.mem_map]

end ValidPathInfos

end NixStore
