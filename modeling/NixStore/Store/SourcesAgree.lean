/-
  NixStore.Store.SourcesAgree

  `computeStorePath`, `addToStore` and `addToStoreSlow` of one source.

  They agree on whatever all of them can store (`computeStorePath_agrees`).
  What they do not agree on: a path can be computed for references that are
  not valid, an empty file that is to be hashed flat is not added by
  `addToStore` (`addToStore_empty`), and `addToStoreSlow` does not notice that
  something is no file if the path it computes is valid already
  (`addToStoreSlow_not_regular`).
-/

import NixStore.Store.AddSource

namespace NixStore

open Effect Wire NarNode

-- ============================================================================
-- Agreement
-- ============================================================================

namespace Store

open DiskStore (SeemsValid Adds sourceInfo dumpFile wanted addToStoreFromDump)

variable {store : StoreDirConfig}

variable (store) in
/-- What the cache says of paths is what the database says. -/
def CacheAgrees (s : DiskStore) : Prop :=
  ∀ p, SeemsValid store s.toLocalStore p ↔ s.db.Valid (store.printStorePath p)

/-- A file is dumped, with whatever mark. -/
theorem dumpPath_file {e : Bool} {c : Bytes} (h : OnDisk (.regular e c)) (e' : Bool) :
    ∃ nar, dumpPath plain defaultPathFilter (.regular e' c) = .ok nar := by
  have hlim : (File.regular e' c).WithinLimits narMaxDepth := by
    have hlt : c.length < 2 ^ 63 := h.sizes
    refine ⟨by decide, ?_⟩
    omega
  exact ⟨_, dumpPath_eq_ok hlim⟩

theorem archive_ne_nil {f : File} {nar : Bytes} (hlim : f.WithinLimits narMaxDepth)
    (hnar : dumpPath plain defaultPathFilter f = .ok nar) : nar ≠ [] := by
  rw [dumpPath_eq_ok hlim] at hnar
  cases hnar
  intro hnil
  exact absurd (List.append_eq_nil_iff.mp hnil).1 (by decide)

theorem pieces_ne_nil (cutting : Cutting) {dump : Bytes} (h : dump ≠ []) :
    ∃ piece rest, cutting.pieces dump = piece :: rest ∧ (piece :: rest).flatten = dump := by
  have hflat := cutting.flatten_pieces dump
  cases hpieces : cutting.pieces dump with
  | nil =>
      rw [hpieces] at hflat
      exact absurd hflat.symm h
  | cons piece rest =>
      rw [hpieces] at hflat
      exact ⟨piece, rest, rfl, hflat⟩

/-- A dump that is not empty reaches `addToStoreFromDump`. -/
theorem addToStore_of_dump (cutting : Cutting) (now : Int) (narBufferSize : Nat) (turns : List Nat)
    (name : Bytes) {f : File} {method : ContentAddressMethod} (hashAlgo : HashAlgorithm)
    (references : Finset StorePath) (repair : Bool) {dump : Bytes}
    (hdump : dumpFile method.getFileIngestionMethod f = .ok dump) (hne : dump ≠ []) :
    ∃ chunks, chunks.flatten = dump ∧
      addToStore store cutting now narBufferSize turns name f method hashAlgo references repair
        = addToStoreFromDump store now narBufferSize chunks turns name
          method.getFileIngestionMethod.toSerialisation method hashAlgo references repair := by
  obtain ⟨piece, rest, hpieces, hflat⟩ := pieces_ne_nil cutting hne
  refine ⟨piece :: rest, hflat, ?_⟩
  funext s
  unfold addToStore
  simp only [hdump, bind_of_ok (fromExcept_ok _ s), hpieces]

/-- What `addToStoreSlow` computes for a tree that can be dumped. -/
theorem slowInfo_of_dump {name : Bytes} {f : File} {method : ContentAddressMethod}
    {hashAlgo : HashAlgorithm} {references : Finset StorePath} {nar : Bytes} (hdisk : OnDisk f)
    (hnar : dumpPath plain defaultPathFilter f = .ok nar) {ca : ContentAddressWithReferences}
    (hca : ContentAddressWithReferences.fromParts method
      (store.hashString hashAlgo (hashedBytes method.getFileIngestionMethod f nar)).1
      { others := references, self := false } = .ok ca) :
    slowInfo store name f method hashAlgo references none
      = (store.makeFixedOutputPathFromCA name ca).map fun p => (sourceInfo store p ca nar, nar) := by
  unfold slowInfo
  rw [hnar, ok_bind, slowHashes_dump hdisk hnar, ok_bind]
  simp only [checkExpectedHash, ok_bind, hca]
  cases hpath : store.makeFixedOutputPathFromCA name ca with
  | error e =>
      rw [ValidPathInfo.makeFromCA, hpath]
      rfl
  | ok p =>
      obtain ⟨info, hmake, hinfo⟩ := DiskStore.makeFromCA_of_path hpath nar
      rw [hmake, ok_bind, hinfo]
      rfl

/-- `addToStoreSlow` of a tree whose path does not occur in what is hashed. -/
theorem addToStoreSlow_source {name : Bytes} {f : File} {method : ContentAddressMethod}
    {hashAlgo : HashAlgorithm} {references : Finset StorePath} {dump nar : Bytes}
    (hdump : dumpFile method.getFileIngestionMethod f = .ok dump) (hdisk : OnDisk f)
    (hnar : dumpPath plain defaultPathFilter f = .ok nar) {ca : ContentAddressWithReferences}
    (hca : ContentAddressWithReferences.fromParts method (store.hashString hashAlgo dump).1
      { others := references, self := false } = .ok ca)
    {p : StorePath} (hpath : store.makeFixedOutputPathFromCA name ca = .ok p)
    (habsent : ¬ p.hashPart <:+: dump) (now : Int) {s : DiskStore} (hcache : CacheAgrees store s) :
    Adds store (addToStoreSlow store now name f method hashAlgo references none)
      (sourceInfo store p ca nar) (sourceInfo store p ca nar) s := by
  obtain ⟨ca', hca', hmethod, hhash⟩ :=
    DiskStore.fromParts_eq_ok method (store.hashString hashAlgo dump).1 references
  rw [hca] at hca'
  cases hca'
  have hinfo : slowInfo store name f method hashAlgo references none
      = .ok (sourceInfo store p ca nar, nar) := by
    rw [slowInfo_of_dump hdisk hnar (by rw [DiskStore.hashedBytes_eq_dump hdump hnar]; exact hca),
      hpath]
    rfl
  have hadd : ∀ s₁, DiskStore.SameContents s s₁ →
      Adds store (DiskStore.addToStore store now (sourceInfo store p ca nar) nar false) ()
        (sourceInfo store p ca nar) s₁ := by
    intro s₁ hsame
    have hcache₁ : SeemsValid store s₁.toLocalStore p ↔ s₁.db.Valid (store.printStorePath p) := by
      unfold SeemsValid
      rw [hsame.find_eq p, hsame.db_eq]
      exact hcache p
    exact DiskStore.adds_of_import
      (fun t => DiskStore.import_source hdump hdisk hnar hmethod hhash hpath habsent t) hcache₁
  have hrun : addToStoreSlow store now name f method hashAlgo references none
      = (do
        let _ ← (do
          if ← wanted store false p then
            DiskStore.addToStore store now (sourceInfo store p ca nar) nar false : DiskM Unit)
        pure (sourceInfo store p ca nar)) := by
    funext t
    unfold addToStoreSlow
    rw [hinfo, bind_of_ok (fromExcept_ok _ t), bind_assoc]
    refine congrFun (congrArg (wanted store false p >>= ·) (funext fun b => ?_)) t
    cases b with
    | true => rfl
    | false => rfl
  rw [hrun]
  exact (DiskStore.Adds.behind_check (hcache p) hadd).then_pure _

/-- The three functions agree on every tree that a file system can hold, unless
    something else than a file that is not empty is to be hashed flat: if there
    is no path, nothing is added; otherwise the path, and it alone, is added by
    both functions, with the hash of what they store, exactly if its
    registration is accepted. -/
theorem computeStorePath_agrees (cutting : Cutting) (now : Int) (narBufferSize : Nat)
    (turns : List Nat) (name : Bytes) (f : File) (method : ContentAddressMethod)
    (hashAlgo : HashAlgorithm) (references : Finset StorePath) (s : DiskStore)
    (hdisk : OnDisk f) (hcache : CacheAgrees store s)
    (hfile : method.getFileIngestionMethod = .flat → ∃ e c, f = .regular e c ∧ c ≠ []) :
    (∀ e, computeStorePath store name f method hashAlgo references = .error e →
      (∃ e' s', addToStore store cutting now narBufferSize turns name f method hashAlgo references
        false s = .error e' s') ∧
      ∃ e' s', addToStoreSlow store now name f method hashAlgo references none s = .error e' s') ∧
    ∀ p hash, computeStorePath store name f method hashAlgo references = .ok (p, hash) →
      ∃ ca stored nar,
        ContentAddressWithReferences.fromParts method hash
          { others := references, self := false } = .ok ca ∧
        dumpPath plain defaultPathFilter (storedFile method.getFileIngestionMethod f) = .ok stored ∧
        dumpPath plain defaultPathFilter f = .ok nar ∧
        Adds store (addToStore store cutting now narBufferSize turns name f method hashAlgo
          references false) p (sourceInfo store p ca stored) s ∧
        (¬ p.hashPart <:+: hashedBytes method.getFileIngestionMethod f nar →
          Adds store (addToStoreSlow store now name f method hashAlgo references none)
            (sourceInfo store p ca nar) (sourceInfo store p ca nar) s) := by
  have hdumpable : ∀ dump, dumpFile method.getFileIngestionMethod f = .ok dump →
      dump ≠ [] ∧ (method.getFileIngestionMethod = .nixArchive → f.WithinLimits narMaxDepth) ∧
        (∃ stored, dumpPath plain defaultPathFilter
          (storedFile method.getFileIngestionMethod f) = .ok stored) ∧
        ∃ nar, dumpPath plain defaultPathFilter f = .ok nar := by
    intro dump hdump
    cases hfim : method.getFileIngestionMethod with
    | flat =>
        obtain ⟨e, c, rfl, hne⟩ := hfile hfim
        rw [hfim] at hdump
        have hcontents := contents_of_dumpFile hdump
        cases hdump
        refine ⟨hne, fun h => (by cases h), ?_, dumpPath_file hdisk e⟩
        rw [storedFile, hcontents]
        exact dumpPath_file hdisk false
    | nixArchive =>
        rw [hfim] at hdump
        have hnar : dumpPath plain defaultPathFilter f = .ok dump := hdump
        have hlim := hdisk.withinLimits hnar
        exact ⟨archive_ne_nil hlim hnar, fun _ => hlim, ⟨dump, hnar⟩, dump, hnar⟩
  cases hdump : dumpFile method.getFileIngestionMethod f with
  | error e =>
      -- only an archive is not dumped here, and then neither of the two dumps it
      have hnar : dumpPath plain defaultPathFilter f = .error e := by
        cases hfim : method.getFileIngestionMethod with
        | flat =>
            obtain ⟨e', c, rfl, -⟩ := hfile hfim
            rw [hfim] at hdump
            cases hdump
        | nixArchive =>
            rw [hfim] at hdump
            exact hdump
      constructor
      · intro _ _
        constructor
        · refine ⟨e, s, ?_⟩
          unfold addToStore
          simp only [hdump, bind_of_error (fromExcept_error _ s)]
        · refine ⟨e, s, ?_⟩
          unfold addToStoreSlow slowInfo
          rw [hnar]
          exact bind_of_error (fromExcept_error _ s)
      · intro p hash hcompute
        unfold computeStorePath hashPath at hcompute
        rw [hdump] at hcompute
        cases hcompute
  | ok dump =>
      obtain ⟨hne, hlim, ⟨stored, hstored⟩, nar, hnar⟩ := hdumpable dump hdump
      obtain ⟨ca, hca, -, -⟩ :=
        DiskStore.fromParts_eq_ok method (store.hashString hashAlgo dump).1 references
      obtain ⟨chunks, hchunks, hadd⟩ := @addToStore_of_dump store cutting now narBufferSize
        turns name f method hashAlgo references false dump hdump hne
      have hbytes := DiskStore.hashedBytes_eq_dump hdump hnar
      have hcompute : computeStorePath store name f method hashAlgo references
          = (store.makeFixedOutputPathFromCA name ca).map
              fun p => (p, (store.hashString hashAlgo dump).1) := by
        unfold computeStorePath hashPath
        rw [hdump]
        simp only [ok_bind, pure_eq_ok, hca]
        cases store.makeFixedOutputPathFromCA name ca with
        | error e => rfl
        | ok p => rfl
      cases hpath : store.makeFixedOutputPathFromCA name ca with
      | error e =>
          rw [hpath] at hcompute
          refine ⟨fun _ _ => ⟨⟨e, s, ?_⟩, e, s, ?_⟩, fun p hash h => ?_⟩
          · obtain ⟨r, -, -, hrun⟩ := @DiskStore.addToStoreFromDump_dump store now _ _ _ _ _ hdump hlim
              _ hca name narBufferSize _ hchunks turns false
            rw [hadd, hrun, hpath]
            exact bind_of_error (fromExcept_error _ s)
          · unfold addToStoreSlow
            rw [slowInfo_of_dump hdisk hnar (by rw [hbytes]; exact hca), hpath]
            exact bind_of_error (fromExcept_error _ s)
          · rw [hcompute] at h
            cases h
      | ok p =>
          rw [hpath] at hcompute
          refine ⟨fun e h => ?_, fun q hash h => ?_⟩
          · rw [hcompute] at h
            cases h
          · rw [hcompute] at h
            cases h
            refine ⟨ca, stored, nar, hca, hstored, hnar, ?_, ?_⟩
            · rw [hadd]
              exact DiskStore.addToStoreFromDump_source hdump hlim hstored hca hpath narBufferSize
                hchunks turns (hcache p)
            · intro habsent
              rw [hbytes] at habsent
              exact addToStoreSlow_source hdump hdisk hnar hca hpath habsent now hcache

end Store

namespace Store.Sample

open DiskStore.Sample (measured)
open LocalStore.Sample (pathA)

/-- A sink that hands on everything at once. -/
def whole : Cutting where
  pieces b := if b = [] then [] else [b]
  flatten_pieces b := by
    by_cases h : b = []
    · rw [if_pos h, h]
      rfl
    · rw [if_neg h, List.flatten_singleton]
  ne_nil b := by
    by_cases h : b = []
    · rw [if_pos h]
      exact List.not_mem_nil
    · rw [if_neg h, List.mem_singleton]
      exact fun heq => h heq.symm

/-- An empty cache agrees with an empty database. -/
theorem fresh_agrees : CacheAgrees measured (DiskStore.fresh 10) := fun _ => Iff.rfl

/-- A file with one byte. -/
def oneByte : File := .regular false [0x78]

theorem oneByte_onDisk : OnDisk oneByte where
  limits := ⟨1, by decide, by decide⟩
  sizes := by
    show ([0x78] : Bytes).length < 2 ^ 63
    decide

end Store.Sample

namespace Store

open DiskStore (SeemsValid Adds sourceInfo dumpFile wanted addToStoreFromDump)
open Sample (whole oneByte fresh_agrees oneByte_onDisk)
open DiskStore.Sample (measured)

/-- A file of one byte, flat, into an empty store. -/
theorem computeStorePath_agrees_oneByte :
    OnDisk oneByte ∧ CacheAgrees measured (DiskStore.fresh 10) ∧
      (ContentAddressMethod.flat.getFileIngestionMethod = .flat →
        ∃ e c, oneByte = .regular e c ∧ c ≠ []) ∧
      (∀ e, computeStorePath measured (ascii "a") oneByte .flat .sha256 ∅ = .error e →
        (∃ e' s', addToStore measured whole 1 0 [] (ascii "a") oneByte .flat .sha256 ∅ false
          (DiskStore.fresh 10) = .error e' s') ∧
        ∃ e' s', addToStoreSlow measured 1 (ascii "a") oneByte .flat .sha256 ∅ none
          (DiskStore.fresh 10) = .error e' s') ∧
      ∀ p hash, computeStorePath measured (ascii "a") oneByte .flat .sha256 ∅ = .ok (p, hash) →
        ∃ ca stored nar,
          ContentAddressWithReferences.fromParts .flat hash { others := ∅, self := false }
            = .ok ca ∧
          dumpPath plain defaultPathFilter (storedFile .flat oneByte) = .ok stored ∧
          dumpPath plain defaultPathFilter oneByte = .ok nar ∧
          Adds measured (addToStore measured whole 1 0 [] (ascii "a") oneByte .flat .sha256 ∅
            false) p (sourceInfo measured p ca stored) (DiskStore.fresh 10) ∧
          (¬ p.hashPart <:+: hashedBytes .flat oneByte nar →
            Adds measured (addToStoreSlow measured 1 (ascii "a") oneByte .flat .sha256 ∅ none)
              (sourceInfo measured p ca nar) (sourceInfo measured p ca nar)
              (DiskStore.fresh 10)) := by
  have hfile : ContentAddressMethod.flat.getFileIngestionMethod = .flat →
      ∃ e c, oneByte = .regular e c ∧ c ≠ [] :=
    fun _ => ⟨false, [0x78], rfl, List.cons_ne_nil _ _⟩
  exact ⟨oneByte_onDisk, fresh_agrees, hfile, computeStorePath_agrees whole 1 0 [] (ascii "a")
    oneByte .flat .sha256 ∅ (DiskStore.fresh 10) oneByte_onDisk fresh_agrees hfile⟩

/-- An archive with a reference that is not valid: there is a path for it, but
    it is not added. -/
theorem computeStorePath_ignores_validity :
    OnDisk oneByte ∧ CacheAgrees measured (DiskStore.fresh 10) ∧
      ∃ p hash e s', computeStorePath measured (ascii "b") oneByte .nixArchive .sha256
          {LocalStore.Sample.pathA} = .ok (p, hash) ∧
        addToStore measured whole 1 0 [] (ascii "b") oneByte .nixArchive .sha256
          {LocalStore.Sample.pathA} false (DiskStore.fresh 10) = .error e s' := by
  refine ⟨oneByte_onDisk, fresh_agrees, ?_⟩
  have hok : (computeStorePath measured (ascii "b") oneByte .nixArchive .sha256
      {LocalStore.Sample.pathA}).isOk = true := by decide +kernel
  cases hcompute : computeStorePath measured (ascii "b") oneByte .nixArchive .sha256
      {LocalStore.Sample.pathA} with
  | error e =>
      rw [hcompute] at hok
      cases hok
  | ok r =>
      obtain ⟨h, hhash, hcompute⟩ := bind_eq_ok.mp hcompute
      obtain ⟨ca, hca, hcompute⟩ := bind_eq_ok.mp hcompute
      obtain ⟨p, hpath, hcompute⟩ := bind_eq_ok.mp hcompute
      cases hcompute
      obtain ⟨dump, hdump, hhash⟩ := bind_eq_ok.mp hhash
      cases hhash
      have hlim := oneByte_onDisk.withinLimits hdump
      obtain ⟨chunks, hchunks, hrun⟩ := @addToStore_of_dump measured whole 1 0 [] (ascii "b")
        oneByte .nixArchive .sha256 {LocalStore.Sample.pathA} false dump hdump
        (archive_ne_nil hlim hdump)
      have hadds := @DiskStore.addToStoreFromDump_source measured 1 (ascii "b") oneByte .nixArchive
        .sha256 {LocalStore.Sample.pathA} dump dump hdump (fun _ => hlim) hdump ca hca p hpath 0
        chunks hchunks [] (DiskStore.fresh 10) (fresh_agrees p)
      have hempty : ∀ t, ¬ (DiskStore.fresh 10).db.Valid t := by
        rintro t ⟨row, hrow, -⟩
        exact absurd hrow List.not_mem_nil
      have hrefused : ¬ ((DiskStore.fresh 10).db.Valid (measured.printStorePath p) ∨
          LocalStore.Accepts measured (DiskStore.fresh 10).db
            (.single (sourceInfo measured p ca dump))) := by
        rintro (hvalid | hacc)
        · exact hempty _ hvalid
        · have hmem : LocalStore.Sample.pathA ∈ (sourceInfo measured p ca dump).references := by
            cases hca
            exact Finset.mem_singleton_self _
          rcases hacc.references _ (List.mem_singleton.mpr rfl) _ hmem with hvalid | hself
          · exact hempty _ hvalid
          · obtain ⟨i, hi, hpathA⟩ := ValidPathInfos.mem_paths.mp hself
            rw [List.mem_singleton.mp hi] at hpathA
            have hname := (measured.makeFixedOutputPathFromCA_eq_ok hpath).2
            rw [show p = LocalStore.Sample.pathA from hpathA] at hname
            exact absurd hname (by decide +kernel)
      obtain ⟨e, s', hthrows⟩ := hadds.throws hrefused
      exact ⟨p, _, e, s', rfl, by rw [hrun]; exact hthrows⟩

-- ============================================================================
-- Where they do not agree
-- ============================================================================

/-- The dump of an empty file is empty if it is flat, and nobody reads it. -/
theorem addToStore_empty (cutting : Cutting) (now : Int) (narBufferSize : Nat) (turns : List Nat)
    (name : Bytes) (e : Bool) {method : ContentAddressMethod}
    (hflat : method.getFileIngestionMethod = .flat) (hashAlgo : HashAlgorithm)
    (references : Finset StorePath) (repair : Bool) (s : DiskStore) :
    addToStore store cutting now narBufferSize turns name (.regular e []) method hashAlgo references
      repair s = .error (.error "bad optional access") s := by
  have hnone : cutting.pieces [] = [] := by
    cases hpieces : cutting.pieces [] with
    | nil => rfl
    | cons piece rest =>
        have hflatten := cutting.flatten_pieces []
        have hne := cutting.ne_nil []
        rw [hpieces] at hflatten hne
        rw [List.flatten_cons, List.append_eq_nil_iff] at hflatten
        exact absurd (hflatten.1 ▸ List.mem_cons_self) hne
  have hdump : dumpFile method.getFileIngestionMethod (.regular e []) = .ok [] := by
    rw [hflat]
    rfl
  unfold addToStore
  simp only [hdump, bind_of_ok (fromExcept_ok _ s), hnone, throw_run]

/-- Something that is no file has no flat hash, but its files together do, and
    if the path for that is valid then `addToStoreSlow` returns it. -/
theorem addToStoreSlow_not_regular (now : Int) (name : Bytes) {f : File}
    (hdir : ∀ e c, f ≠ .regular e c) {method : ContentAddressMethod}
    (hflat : method.getFileIngestionMethod = .flat) (hashAlgo : HashAlgorithm)
    (references : Finset StorePath) {nar : Bytes} (hdisk : OnDisk f)
    (hnar : dumpPath plain defaultPathFilter f = .ok nar) {ca : ContentAddressWithReferences}
    (hca : ContentAddressWithReferences.fromParts method (store.hashString hashAlgo f.contents).1
      { others := references, self := false } = .ok ca)
    {p : StorePath} (hpath : store.makeFixedOutputPathFromCA name ca = .ok p) {s : DiskStore}
    (hseems : SeemsValid store s.toLocalStore p) :
    (∃ e, computeStorePath store name f method hashAlgo references = .error e) ∧
      ∃ s', addToStoreSlow store now name f method hashAlgo references none s
        = .ok (sourceInfo store p ca nar) s' := by
  constructor
  · unfold computeStorePath hashPath
    rw [hflat]
    cases f with
    | regular e c => exact absurd rfl (hdir e c)
    | directory es => exact ⟨_, rfl⟩
    | symlink t => exact ⟨_, rfl⟩
  · have hinfo : slowInfo store name f method hashAlgo references none
        = .ok (sourceInfo store p ca nar, nar) := by
      rw [slowInfo_of_dump hdisk hnar (by rw [hflat]; exact hca), hpath]
      rfl
    have hcheck : Run s (wanted store false p) _ _ := DiskStore.wanted_outcome false p s
    unfold addToStoreSlow
    rw [hinfo, bind_of_ok (fromExcept_ok _ s)]
    cases hrun : wanted store false p s with
    | error e s₁ => exact (hcheck.of_error rfl hrun).elim
    | ok b s₁ =>
        obtain ⟨-, hiff⟩ := hcheck.of_ok rfl hrun
        cases b with
        | false =>
            refine ⟨s₁, ?_⟩
            show (wanted store false p >>= _) s = _
            rw [bind_of_ok hrun]
            rfl
        | true =>
            rcases hiff.mp rfl with hrepair | hno
            · cases hrepair
            · exact absurd hseems hno

end Store
end NixStore
