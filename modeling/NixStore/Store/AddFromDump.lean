/-
  NixStore.Store.AddFromDump

  `LocalStore::addToStoreFromDump` (`libstore/local-store.cc`): a stream is
  read, hashed by another thread while it is read, unpacked, and registered
  under the path computed from the hash.

  The stream is unpacked from memory if it is shorter than `narBufferSize`,
  and into a temporary directory while it is read otherwise.  The directory is
  gone when the call ends, so only the tree in it is kept here.  As in
  `NixStore.Store.AddToStore`, other processes, automatic garbage collection
  and what changes neither names nor contents are left out; the file hashes
  that a caller can ask for are part of the latter.
-/

import NixStore.Store.AddToStore
import NixStore.Store.DumpStream

namespace NixStore

open Effect OrderedSet Wire

-- ============================================================================
-- Content addresses
-- ============================================================================

/-- `ContentAddressWithReferences::fromParts`. -/
def ContentAddressWithReferences.fromParts (method : ContentAddressMethod) (hash : Hash)
    (refs : StoreReferences) : Except Error ContentAddressWithReferences :=
  match method with
  | .text =>
      if refs.self then .error (.error "self-reference not allowed with text hashing")
      else .ok (.text hash refs.others)
  | m => .ok (.fixedOutput m.getFileIngestionMethod hash refs)

/-- `ContentAddressWithReferences::getMethod`. -/
def ContentAddressWithReferences.getMethod : ContentAddressWithReferences → ContentAddressMethod
  | .text _ _ => .text
  | .fixedOutput .flat _ _ => .flat
  | .fixedOutput .nixArchive _ _ => .nixArchive

/-- `ContentAddressWithReferences::getHash`. -/
def ContentAddressWithReferences.getHash : ContentAddressWithReferences → Hash
  | .text hash _ => hash
  | .fixedOutput _ hash _ => hash

/-- `ValidPathInfo::makeFromCA`. -/
def ValidPathInfo.makeFromCA (store : StoreDirConfig) (name : Bytes)
    (ca : ContentAddressWithReferences) (narHash : Hash) : Except Error ValidPathInfo := do
  let path ← store.makeFixedOutputPathFromCA name ca
  pure
    { path, narHash
      deriver := none
      references := match ca with
        | .text _ references => references
        | .fixedOutput _ _ references =>
            if references.self then insert path references.others else references.others
      registrationTime := 0
      narSize := 0
      ultimate := false
      sigs := ∅
      ca := some { method := ca.getMethod, hash := ca.getHash } }

-- ============================================================================
-- Infos of computed paths
-- ============================================================================

/-- `StoreReferences::others`. -/
def ContentAddressWithReferences.others : ContentAddressWithReferences → Finset StorePath
  | .text _ references => references
  | .fixedOutput _ _ references => references.others

namespace ValidPathInfo

variable {store : StoreDirConfig}

/-- An info has the references and the content address of a computed path. -/
structure FromCA (info : ValidPathInfo) (ca : ContentAddressWithReferences) : Prop where
  references_eq : info.references = match ca with
    | .text _ references => references
    | .fixedOutput _ _ references =>
        if references.self then insert info.path references.others else references.others
  ca_eq : info.ca = some { method := ca.getMethod, hash := ca.getHash }

/-- The self-reference comes out of the references again. -/
theorem FromCA.contentAddressWithReferences {info : ValidPathInfo}
    {ca : ContentAddressWithReferences} (h : info.FromCA ca) (hother : info.path ∉ ca.others) :
    info.contentAddressWithReferences { method := ca.getMethod, hash := ca.getHash } = .ok ca := by
  have hrefs := h.references_eq
  unfold ValidPathInfo.contentAddressWithReferences
  cases ca with
  | text hash references =>
      have hself : info.path ∉ info.references := by
        rw [hrefs]
        exact hother
      have hmethod : (ContentAddressWithReferences.text hash references).getMethod = .text := rfl
      rw [if_pos hmethod, if_neg hself, hrefs]
      rfl
  | fixedOutput method hash references =>
      obtain ⟨others, self⟩ := references
      have hparts : info.references.erase info.path = others ∧
          decide (info.path ∈ info.references) = self := by
        cases self with
        | true =>
            rw [hrefs]
            exact ⟨Finset.erase_insert hother, decide_eq_true (Finset.mem_insert_self _ _)⟩
        | false =>
            rw [hrefs]
            exact ⟨Finset.erase_eq_of_notMem hother, decide_eq_false hother⟩
      have hmethod : (ContentAddressWithReferences.fixedOutput method hash ⟨others, self⟩).getMethod
          ≠ .text := by
        cases method <;> exact nofun
      have hingestion : (ContentAddressWithReferences.fixedOutput method hash
          ⟨others, self⟩).getMethod.getFileIngestionMethod = method := by
        cases method <;> rfl
      rw [if_neg hmethod, hingestion, hparts.1, hparts.2]
      rfl

/-- A computed path is the one that its info claims. -/
theorem FromCA.isContentAddressed {info : ValidPathInfo} {ca : ContentAddressWithReferences}
    (h : info.FromCA ca) (hother : info.path ∉ ca.others) {name : Bytes}
    (hpath : store.makeFixedOutputPathFromCA name ca = .ok info.path) :
    info.isContentAddressed store = .ok true := by
  have hname := (store.makeFixedOutputPathFromCA_eq_ok hpath).2
  rw [ValidPathInfo.isContentAddressed, h.ca_eq]
  show (info.contentAddressWithReferences _ >>= fun fullCa =>
    store.makeFixedOutputPathFromCA info.path.name fullCa >>= fun caPath =>
      pure (decide (caPath = info.path))) = _
  rw [h.contentAddressWithReferences hother, ok_bind, hname, hpath, ok_bind, pure_eq_ok]
  exact congrArg Except.ok (decide_eq_true rfl)

/-- `addValidPath` lets it pass. -/
theorem FromCA.checkContentAddressed {info : ValidPathInfo} {ca : ContentAddressWithReferences}
    (h : info.FromCA ca) (hother : info.path ∉ ca.others) {name : Bytes}
    (hpath : store.makeFixedOutputPathFromCA name ca = .ok info.path) :
    LocalStore.checkContentAddressed store info = .ok () := by
  have hsome : info.ca ≠ none := by
    rw [h.ca_eq]
    exact Option.some_ne_none _
  rw [LocalStore.checkContentAddressed, if_neg hsome, h.isContentAddressed hother hpath, ok_bind]
  rfl

end ValidPathInfo

-- ============================================================================
-- addToStoreFromDump
-- ============================================================================

namespace DiskStore

variable (store : StoreDirConfig)

/-- `hashPath(path, method, algo)` of the tree in the temporary directory. -/
def hashTemp (method : FileIngestionMethod) (algo : HashAlgorithm) (temp : Option File) :
    Except Error Hash :=
  match temp with
  | none => .error (.error "path does not exist")
  | some f => (dumpFile method f).map fun dump => (store.hashString algo dump).1

/-- `moveFile(tempPath, toRealPath(path))`. -/
def moveFile (path : StorePath) (f : File) : DiskM Unit := fun s =>
  match realName path with
  | none => .error (.error s!"opening parent directory of '{showBytes path.baseName}'") s
  | some name => .ok () (s.place name (some f))

/-- Put the tree at its path: from the buffer, or from the temporary
    directory. -/
def settle (dumpMethod : FileSerialisationMethod) (path : StorePath) (dump : ReadDump) :
    DiskM Unit :=
  match dump.temp, dumpMethod with
  | some f, _ => moveFile path f
  | none, .flat => moveFile path (.regular false dump.dump)
  | none, .nixArchive => do
      let _ ← restorePath path dump.dump
      pure ()

/-- Replace what is at a path by that tree. -/
def replaceTree (dumpMethod : FileSerialisationMethod) (path : StorePath) (dump : ReadDump) :
    DiskM Unit := do
  deletePath path
  settle dumpMethod path dump

/-- The NAR hash and size to register. -/
def narHashOf (dumpMethod : FileSerialisationMethod) (hashAlgo : HashAlgorithm) (dump : ReadDump)
    (tree : Option File) : Except Error (Hash × UInt64) :=
  if dumpMethod ≠ .nixArchive ∨ hashAlgo ≠ .sha256 then
    match tree with
    | none => .error (.error "path does not exist")
    | some f => do
        let nar ← dumpPath NarNode.plain defaultPathFilter f
        pure ((store.hashString .sha256 nar).1, UInt64.ofNat nar.length)
  else .ok ((store.hashString hashAlgo dump.hashed).1, UInt64.ofNat dump.hashed.length)

/-- What `addToStoreFromDump` does once it knows that it has to. -/
def importDump (now : Int) (name : Bytes) (dumpMethod : FileSerialisationMethod)
    (hashAlgo : HashAlgorithm) (desc : ContentAddressWithReferences) (path : StorePath)
    (dump : ReadDump) : DiskM Unit := do
  replaceTree dumpMethod path dump
  let s ← get
  let narHash ← fromExcept (narHashOf store dumpMethod hashAlgo dump (s.tree path))
  let info ← fromExcept (ValidPathInfo.makeFromCA store name desc narHash.1)
  registerValidPath store now { info with narSize := narHash.2 }

/-- `LocalStore::addToStoreFromDump`, at the time `now`, of a stream that
    arrives in `chunks`. -/
def addToStoreFromDump (now : Int) (narBufferSize : Nat) (chunks : List Bytes) (turns : List Nat)
    (name : Bytes) (dumpMethod : FileSerialisationMethod) (hashMethod : ContentAddressMethod)
    (hashAlgo : HashAlgorithm) (references : Finset StorePath) (repair : Bool) :
    DiskM StorePath := do
  let hashSink : AsyncHashSink := { hashed := [], chunks := [], turns }
  let methodsMatch := decide (dumpMethod.toIngestion = hashMethod.getFileIngestionMethod)
  let dump ← fromExcept
    (readDump narBufferSize dumpMethod methodsMatch { orig := chunks, sink := hashSink })
  let hash ← fromExcept
    (if methodsMatch then .ok (store.hashString hashAlgo dump.hashed).1
     else hashTemp store hashMethod.getFileIngestionMethod hashAlgo dump.temp)
  let desc ← fromExcept
    (ContentAddressWithReferences.fromParts hashMethod hash { others := references, self := false })
  let dstPath ← fromExcept (store.makeFixedOutputPathFromCA name desc)
  addIfWanted store repair dstPath
    (importDump store now name dumpMethod hashAlgo desc dstPath dump)
  pure dstPath

-- ============================================================================
-- Importing an archive that is hashed as one
-- ============================================================================

variable {store} {now : Int}

/-- A tree was put at a path, and all others are as they were. -/
def Placed (s : DiskStore) (path : StorePath) (f : File) (s' : DiskStore) : Prop :=
  ∀ p, s'.tree p = if p = path then some f else s.tree p

theorem moveFile_erased {path : StorePath} {name : FileName} (hname : realName path = some name)
    (f : File) (s : DiskStore) :
    ∃ s', (do deletePath path; moveFile path f : DiskM Unit) s = .ok () s' ∧
      s'.toLocalStore = s.toLocalStore ∧ Placed s path f s' := by
  have hrun : (do deletePath path; moveFile path f : DiskM Unit) s
      = .ok () (({ s with files := s.files.erase name } : DiskStore).place name (some f)) := by
    rw [bind_run, deletePath, hname]
    simp only [moveFile, hname]
  refine ⟨_, hrun, toLocalStore_place _ _ _, fun p => ?_⟩
  have hothers : ∀ n, n ≠ name → (({ s with files := s.files.erase name } :
      DiskStore).place name (some f)).files.lookup n = s.files.lookup n :=
    fun n hn => (lookup_place s name n _).trans (if_neg hn)
  exact tree_replace hname ((lookup_place s name name _).trans (if_pos rfl)) hothers p

/-- The tree is that of the archive, wherever it comes from. -/
theorem replaceTree_outcome {path : StorePath} (hname : realName path ≠ none) {stream : Bytes}
    {dump : ReadDump} (hdump : Holds stream dump) (s : DiskStore) :
    Run s (replaceTree .nixArchive path dump)
      (fun _ s' => s'.toLocalStore = s.toLocalStore ∧ ∃ f nar,
        NixStore.restorePath stream = (some f, .ok nar) ∧ Placed s path f s')
      (fun _ _ => ¬ ∃ f nar, NixStore.restorePath stream = (some f, .ok nar)) := by
  cases hdump with
  | buffered hashed =>
      have hdo : replaceTree .nixArchive path { dump := stream, temp := none, hashed }
          = unpack path stream >>= fun _ => pure () := by
        funext s
        simp only [replaceTree, settle, unpack, bind_assoc]
      rw [hdo]
      refine Spec.seq ((unpack_outcome path stream s).weaken (fun _ h => h) (fun _ _ h => h) ?_)
        fun nar => Spec.ret ?_
      · rintro e s' ⟨-, -, hwhy⟩ ⟨f, nar, hrestore⟩
        rcases hwhy with hnone | herr
        · exact hname hnone
        · rw [hrestore] at herr
          cases herr
      · rintro s' ⟨hlocal, htrees, -, hnar⟩
        obtain ⟨f, hf, -⟩ := restorePath_eq_ok.mp
          (show NixStore.restorePath stream = (_, .ok nar) from Prod.ext rfl hnar)
        have hrestore : NixStore.restorePath stream = (some f, .ok nar) := Prod.ext hf hnar
        refine ⟨hlocal, f, nar, hrestore, fun p => ?_⟩
        rw [htrees p, hrestore]
        simp only [hname, ne_eq, not_false_iff, and_true]
  | unpacked hashed hrestore =>
      rename_i f nar
      obtain ⟨name, hsome⟩ := Option.ne_none_iff_exists'.mp hname
      obtain ⟨s', hrun, hlocal, hplaced⟩ := moveFile_erased hsome f s
      intro t ht
      rw [ht, show replaceTree .nixArchive path { dump := [], temp := some f, hashed } s = _ from hrun]
      exact ⟨hlocal, f, nar, hrestore, hplaced⟩

variable (store) in
/-- The content address of an archive. -/
def archiveDesc (references : Finset StorePath) (hashed : Bytes) : ContentAddressWithReferences :=
  .fixedOutput .nixArchive (store.hashString .sha256 hashed).1 { others := references, self := false }

variable (store) in
/-- The info that is registered. -/
def archiveInfo (path : StorePath) (references : Finset StorePath) (hashed : Bytes) :
    ValidPathInfo where
  path := path
  deriver := none
  narHash := (store.hashString .sha256 hashed).1
  references := references
  registrationTime := 0
  narSize := UInt64.ofNat hashed.length
  ultimate := false
  sigs := ∅
  ca := some { method := .nixArchive, hash := (store.hashString .sha256 hashed).1 }

variable (store) in
/-- The info that is registered for a source with this dump. -/
def sourceInfo (p : StorePath) (ca : ContentAddressWithReferences) (nar : Bytes) :
    ValidPathInfo where
  path := p
  deriver := none
  narHash := (store.hashString .sha256 nar).1
  references := match ca with
    | .text _ references => references
    | .fixedOutput _ _ references =>
        if references.self then insert p references.others else references.others
  registrationTime := 0
  narSize := UInt64.ofNat nar.length
  ultimate := false
  sigs := ∅
  ca := some { method := ca.getMethod, hash := ca.getHash }

variable (store now) in
/-- What a call that imported a stream has done. -/
structure ImportedDump (stream : Bytes) (info : ValidPathInfo) (s s' : DiskStore) : Prop where
  placed : ∃ f nar, NixStore.restorePath stream = (some f, .ok nar) ∧ Placed s info.path f s'
  accepts : LocalStore.Accepts store s.db (.single info)
  cache_eq : s'.pathInfoCache =
    LocalStore.cacheAfter s.pathInfoCache (LocalStore.entered store s.db [info])
  committed : LocalStore.Committed store now s.db (.single info) s'.db

theorem importDump_outcome {name stream : Bytes} {references : Finset StorePath}
    {path : StorePath} {dump : ReadDump} (hdump : Holds stream dump)
    (hpath : store.makeFixedOutputPathFromCA name (archiveDesc store references dump.hashed)
      = .ok path) (s : DiskStore) :
    Run s (importDump store now name .nixArchive .sha256 (archiveDesc store references dump.hashed)
        path dump)
      (fun _ s' => ImportedDump store now stream (archiveInfo store path references dump.hashed) s s')
      (fun _ _ => ¬ ((∃ f nar, NixStore.restorePath stream = (some f, .ok nar)) ∧
        LocalStore.Accepts store s.db (.single (archiveInfo store path references dump.hashed)))) := by
  have hname : realName path ≠ none := by
    have hdash := (store.makeFixedOutputPathFromCA_eq_ok hpath).1
    refine realName_ne_none ⟨?_, ?_⟩
    · rw [hdash]
      decide
    · rw [hdash]
      decide
  have hmake : ValidPathInfo.makeFromCA store name (archiveDesc store references dump.hashed)
      (store.hashString .sha256 dump.hashed).1
      = .ok { archiveInfo store path references dump.hashed with narSize := 0 } := by
    rw [ValidPathInfo.makeFromCA, hpath]
    rfl
  unfold importDump
  refine Spec.seq ((replaceTree_outcome hname hdump s).weaken (fun _ h => h) (fun _ _ h => h) ?_)
    fun _ => Spec.at_state fun s₁ hs₁ => ?_
  · exact fun _ _ hnone h => hnone h.1
  obtain ⟨hlocal, f, nar, hrestore, hplaced⟩ := hs₁
  refine Spec.seq (Q := fun t s' => s' = s₁) (fun t ht => ht) fun t => ?_
  refine Spec.seq (Q := fun narHash s' => s' = s₁ ∧
      narHash = ((store.hashString .sha256 dump.hashed).1, UInt64.ofNat dump.hashed.length))
    (Spec.lift ?_ ?_) fun narHash => ?_
  · rintro r s' hr rfl
    cases hr
    exact ⟨rfl, rfl⟩
  · rintro e s' hr rfl
    cases hr
  refine Spec.seq (Q := fun info s' => s' = s₁ ∧ { info with narSize := narHash.2 }
      = archiveInfo store path references dump.hashed) (Spec.lift ?_ ?_) fun info => ?_
  · rintro info s' hr ⟨rfl, rfl⟩
    rw [hmake] at hr
    cases hr
    exact ⟨rfl, rfl⟩
  · rintro e s' hr ⟨rfl, rfl⟩
    rw [hmake] at hr
    cases hr
  refine Spec.at_state ?_
  rintro _ ⟨rfl, hinfo⟩
  rw [registerValidPath, hinfo]
  refine (onStore_spec (LocalStore.registerValidPaths_outcome _ _)).weaken (fun _ h => h) ?_ ?_
  · rintro _ s' ⟨⟨hacc, hcache, hdb⟩, hfiles⟩
    rw [hlocal] at hacc hcache hdb
    refine ⟨⟨f, nar, hrestore, fun p => Eq.trans ?_ (hplaced p)⟩, hacc, hcache, hdb⟩
    rw [tree, tree, hfiles]
  · rintro _ s' ⟨⟨hacc, -, -⟩, -⟩ h
    rw [hlocal] at hacc
    exact hacc h.2

/-- The outcome of `addToStoreFromDump` for an archive that is hashed as one
    with SHA-256. -/
theorem addToStoreFromDump_outcome (narBufferSize : Nat) (chunks : List Bytes) (turns : List Nat)
    (name : Bytes) (references : Finset StorePath) (repair : Bool) (s : DiskStore) :
    Run s (addToStoreFromDump store now narBufferSize chunks turns name .nixArchive .nixArchive
        .sha256 references repair)
      (fun p s' => ∃ hashed, hashedPart narBufferSize chunks.flatten = .ok hashed ∧
        store.makeFixedOutputPathFromCA name (archiveDesc store references hashed) = .ok p ∧
        AddedIf store
          (ImportedDump store now chunks.flatten (archiveInfo store p references hashed))
          s p repair s')
      (fun _ _ => ∀ hashed p, hashedPart narBufferSize chunks.flatten = .ok hashed →
        store.makeFixedOutputPathFromCA name (archiveDesc store references hashed) = .ok p →
        Wanted store s p repair ∧
        ¬ ((∃ f nar, NixStore.restorePath chunks.flatten = (some f, .ok nar)) ∧
          LocalStore.Accepts store s.db (.single (archiveInfo store p references hashed)))) := by
  have hread := readDump_archive narBufferSize chunks turns
  unfold addToStoreFromDump
  simp only [FileSerialisationMethod.toIngestion, ContentAddressMethod.getFileIngestionMethod,
    decide_true, if_true]
  cases hpart : hashedPart narBufferSize chunks.flatten with
  | error e =>
      rw [hpart] at hread
      rw [hread]
      refine Spec.seq (Q := fun _ _ => False) (Spec.lift ?_ ?_) fun _ _ h => h.elim
      · intro a t h
        cases h
      · intro e' t _ _ hashed p h
        cases h
  | ok hashed =>
      rw [hpart] at hread
      obtain ⟨dump, rfl, hdump, hrun⟩ := hread
      rw [hrun]
      refine Spec.seq (Q := fun d s' => d = dump ∧ s' = s) (Spec.lift ?_ ?_) fun d => ?_
      · rintro _ _ h rfl
        cases h
        exact ⟨rfl, rfl⟩
      · intro _ _ h
        cases h
      refine Spec.seq (Q := fun hash s' => d = dump ∧
          hash = (store.hashString .sha256 dump.hashed).1 ∧ s' = s) (Spec.lift ?_ ?_) fun hash => ?_
      · rintro _ _ h ⟨rfl, rfl⟩
        cases h
        exact ⟨rfl, rfl, rfl⟩
      · intro _ _ h
        cases h
      refine Spec.seq (Q := fun desc s' => d = dump ∧
          desc = archiveDesc store references dump.hashed ∧ s' = s) (Spec.lift ?_ ?_) fun desc => ?_
      · rintro _ _ h ⟨rfl, rfl, rfl⟩
        cases h
        exact ⟨rfl, rfl, rfl⟩
      · intro _ _ h
        cases h
      refine Spec.seq (Q := fun p s' => d = dump ∧ desc = archiveDesc store references dump.hashed ∧
          store.makeFixedOutputPathFromCA name (archiveDesc store references dump.hashed) = .ok p ∧
          s' = s) (Spec.lift ?_ ?_) fun p => Spec.at_state ?_
      · rintro p _ h ⟨rfl, rfl, rfl⟩
        exact ⟨rfl, rfl, h, rfl⟩
      · rintro e _ h ⟨rfl, rfl, rfl⟩ hashed p hok hp
        cases hok
        rw [h] at hp
        cases hp
      rintro _ ⟨rfl, rfl, hpath, rfl⟩
      refine Spec.seq ((addIfWanted_outcome (importDump_outcome hdump hpath) p repair _).weaken
        (fun _ h => h) (fun _ _ h => h) ?_) fun _ => Spec.ret ?_
      · rintro _ s' ⟨hwanted, s₁, hsame, hwhy⟩ hashed q hok hq
        cases hok
        rw [hpath] at hq
        cases hq
        rw [hsame.db_eq] at hwhy
        exact ⟨hwanted, hwhy⟩
      · exact fun s' h => ⟨_, rfl, hpath, h⟩

-- ============================================================================
-- What is registered
-- ============================================================================

variable {stream name : Bytes} {references : Finset StorePath} {repair : Bool} {s : DiskStore}

/-- What an import of a path that was not valid leaves in its row. -/
theorem ImportedDump.row {info : ValidPathInfo} {s₁ s' : DiskStore}
    (h : ImportedDump store now stream info s₁ s')
    (hnew : ¬ s₁.db.Valid (store.printStorePath info.path)) :
    ∃ row, s'.db.queryPathInfo (store.printStorePath info.path) = some row ∧
      LocalStore.readNarHash store info.path row.hash = .ok info.narHash ∧
      row.narSize.getD 0 = info.narSize := by
  obtain ⟨id, hrow⟩ := h.committed.added info (List.mem_singleton.mpr rfl) hnew
  refine ⟨_, hrow, LocalStore.readNarHash_column info.path info, ?_⟩
  show (LocalStore.narSizeColumn info).getD 0 = info.narSize
  unfold LocalStore.narSizeColumn
  by_cases hzero : info.narSize = 0
  · rw [if_neg (not_not.mpr hzero), hzero]
    rfl
  · rw [if_pos hzero]
    rfl

/-- A stream that is one archive is hashed as a whole. -/
theorem hashedPart_whole (h : (NixStore.restorePath stream).2 = .ok stream) (narBufferSize : Nat) :
    hashedPart narBufferSize stream = .ok stream := by
  unfold hashedPart
  split
  · rfl
  · rw [h]
    show Except.ok (stream.take (max narBufferSize stream.length)) = _
    rw [List.take_of_length_le (Nat.le_max_right _ _)]

namespace Sample

/-- The archive of a file that is not executable. -/
def plainNar (contents : Bytes) : Bytes :=
  match dumpPath NarNode.plain defaultPathFilter (.regular false contents) with
  | .ok nar => nar
  | .error _ => []

/-- The archive of an empty file. -/
def emptyNar : Bytes := plainNar []

/-- SHA-256 of the texts that are hashed in the samples. -/
def sha256 : List (Bytes × Nat) := [
  (emptyNar, 0x77ac62e2629d8e45f624589c0c8bf99e24b3a722349bf1e79bc186008534e246),
  (emptyNar ++ [0], 0xd736ffdc3ca2d6188eecdd2a6aa6035fb39a3d05ba1ffd72b97f11d25bbe67f4),
  (plainNar (ascii "x"), 0x2ca0b8ce996f865db37619bfe91023559305aad8158042fc6ddb0ef1d43c5b67),
  (ascii ("source:sha256:77ac62e2629d8e45f624589c0c8bf99e24b3a722349bf1e79bc186008534e246" ++
    ":/nix/store:a"), 0xca8b57440f814050a7351fcc723f7485bf6852e29d0ac2d681a82de77576ac12),
  (ascii ("source:self:sha256:77ac62e2629d8e45f624589c0c8bf99e24b3a722349bf1e79bc186008534e246" ++
    ":/nix/store:a"), 0x7c8d4917a3f0bf7460be2af969f4534f01b6b9b39c310d9fe0287ca7884ff8eb),
  (ascii ("source:sha256:77ac62e2629d8e45f624589c0c8bf99e24b3a722349bf1e79bc186008534e246" ++
    ":/nix/store:b"), 0xcfc5855b52df90ebd1fbf1c63d4ddac445213bb6ccfc2f427db820ac4685c48e),
  (ascii ("source:/nix/store/w996igw5fhzp5pmk8g9bfv99is99b0ap-a:sha256:" ++
    "77ac62e2629d8e45f624589c0c8bf99e24b3a722349bf1e79bc186008534e246" ++
    ":/nix/store:b"), 0x6bc873d6711aacea0fee8207983863e23c27a4edb57e12afbdc55fec23555da8),
  (ascii ("source:sha256:d736ffdc3ca2d6188eecdd2a6aa6035fb39a3d05ba1ffd72b97f11d25bbe67f4" ++
    ":/nix/store:a"), 0x8c3d43d92de049755fe9eb0acf34515dbe9aa0539ffe8c3a9335df6b641b5de1)]

/-- The bytes of a digest.  What is not in the table gets one of its own by its
    length. -/
def digestBytes (algo : HashAlgorithm) (b : Bytes) : Bytes :=
  match sha256.lookup b, algo with
  | some n, .sha256 => (List.range 32).map fun i => UInt8.ofNat (n / 256 ^ (31 - i))
  | _, _ => UInt8.ofNat b.length :: List.replicate (regularHashSize algo - 1) 0

theorem length_digestBytes (algo : HashAlgorithm) (b : Bytes) :
    (digestBytes algo b).length = regularHashSize algo := by
  cases hknown : sha256.lookup b with
  | none => cases algo <;> simp only [digestBytes, hknown] <;> rfl
  | some n => cases algo <;> simp only [digestBytes, hknown] <;> rfl

/-- SHA-256 where the samples compute it. -/
def digest (algo : HashAlgorithm) (b : Bytes) : { h : Hash // h.algo = algo } :=
  ⟨⟨algo, digestBytes algo b, length_digestBytes algo b⟩, rfl⟩

/-- The usual store directory with that digest. -/
def measured : StoreDirConfig := { LocalStore.Sample.store with hashString := digest }

theorem restorePath_emptyNar :
    NixStore.restorePath (emptyNar ++ [0]) = (some (.regular false []), .ok emptyNar) := by
  refine restorePath_eq_ok.mpr ⟨_, rfl, ?_, rfl, List.prefix_append _ _⟩
  show 0 < narMaxDepth ∧ ([] : Bytes).length < 2 ^ 64
  decide

end Sample

end DiskStore
end NixStore
