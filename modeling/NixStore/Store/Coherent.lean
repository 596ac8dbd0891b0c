/-
  NixStore.Store.Coherent

  The queries of a store whose path-info cache agrees with the database.

  They answer what the database says, and the cache goes on agreeing with it.
  An exception other than `InvalidPath` means that a row cannot be read; the
  parsers throw neither `InvalidPath` nor `PathInUse`, which callers catch.
-/

import NixStore.Store.VerifyPaths

namespace NixStore

open Effect OrderedSet Wire Relation

-- ============================================================================
-- What parsers throw
-- ============================================================================

/-- An exception that `InvalidPath` and `PathInUse` handlers let through. -/
def Error.passes : Error → Bool
  | .invalidPath _ | .pathInUse _ => false
  | _ => true

/-- A computation throws no other exceptions. -/
def Parses {α : Type} (x : Except Error α) : Prop := ∀ e, x = .error e → e.passes = true

namespace Parses

variable {α β : Type}

theorem ok (a : α) : Parses (.ok a : Except Error α) := nofun

theorem error {e : Error} (h : e.passes = true) : Parses (.error e : Except Error α) := by
  rintro _ ⟨⟩
  exact h

theorem throwIf {c : Prop} [Decidable c] {e : Error} (h : e.passes = true) :
    Parses (NixStore.throwIf c e) := by
  unfold NixStore.throwIf
  split
  · exact error h
  · exact ok _

theorem bind {x : Except Error α} {f : α → Except Error β} (hx : Parses x)
    (hf : ∀ a, Parses (f a)) : Parses (x >>= f) := by
  cases x with
  | ok a => exact hf a
  | error e => exact error (hx e rfl)

theorem map {x : Except Error α} {f : α → β} (hx : Parses x) : Parses (x.map f) := by
  cases x with
  | ok a => exact ok _
  | error e => exact error (hx e rfl)

theorem canonPath (path : Bytes) : Parses (NixStore.canonPath path) :=
  (throwIf rfl).bind fun _ => (throwIf rfl).bind fun _ => ok _

theorem checkDots (name : Bytes) : Parses (NixStore.checkDots name) := by
  unfold NixStore.checkDots
  split
  all_goals first | exact error rfl | exact ok _

theorem ofBaseName (baseName : Bytes) : Parses (StorePath.ofBaseName baseName) := by
  have hcheck : Parses (checkBaseName baseName) :=
    (throwIf rfl).bind fun _ => (throwIf rfl).bind fun _ => (throwIf rfl).bind fun _ =>
      (throwIf rfl).bind fun _ => (checkDots _).bind fun _ => throwIf rfl
  unfold StorePath.ofBaseName
  split
  · exact ok _
  · next e h => exact error (hcheck e h)

theorem parseStorePath (dir : StoreDir) (path : Bytes) : Parses (dir.parseStorePath path) :=
  (throwIf rfl).bind fun _ => (canonPath path).bind fun _ => (throwIf rfl).bind fun _ =>
    ofBaseName _

theorem parseHashAlgo (s : Bytes) : Parses (NixStore.parseHashAlgo s) := by
  unfold NixStore.parseHashAlgo
  repeat' split
  all_goals first | exact ok _ | exact error rfl

theorem baseFromSize (rest : Bytes) (algo : HashAlgorithm) : Parses (Hash.baseFromSize rest algo) := by
  unfold Hash.baseFromSize
  dsimp only
  repeat' split
  all_goals first | exact ok _ | exact error rfl

theorem parseLowLevel (rest : Bytes) (algo : HashAlgorithm)
    (pair : (Bytes → Except Error Bytes) × String) : Parses (Hash.parseLowLevel rest algo pair) := by
  unfold Hash.parseLowLevel
  split
  · exact error rfl
  · dsimp only
    split
    · exact ok _
    · exact error rfl

theorem parseAnyPrefixed (original : Bytes) : Parses (Hash.parseAnyPrefixed original) := by
  have hsplit : Parses (Hash.splitAlgo original) := by
    unfold Hash.splitAlgo
    split
    · exact (parseHashAlgo _).map
    · split
      · exact (parseHashAlgo _).map
      · exact ok _
  have hlow : ∀ rest algo format, Parses (do
      let h ← Hash.parseLowLevel rest algo (Hash.baseExplicit format)
      pure (h, format)) :=
    fun _ _ _ => (parseLowLevel _ _ _).bind fun _ => ok _
  refine bind (hsplit.bind fun r => bind ?_ fun algo => ?_) fun _ => ok _
  · cases r.1 with
    | none => exact error rfl
    | some algo => exact ok _
  · show Parses (if _ then _ else _)
    split
    · exact (ok _).bind fun _ => hlow _ _ _
    · exact (baseFromSize _ _).bind fun _ => hlow _ _ _

theorem base64Decode (s : Bytes) : Parses (Base64.decode s) := by
  have hloop : ∀ d bits, Parses (Base64.decodeLoop d bits s) := by
    induction s with
    | nil => exact fun _ _ => ok _
    | cons c s ih =>
        intro d bits
        unfold Base64.decodeLoop
        split
        · exact ok _
        split
        · exact ih _ _
        split
        · exact error rfl
        · dsimp only
          split
          · exact (ih _ _).map
          · exact ih _ _
  exact hloop 0 0

theorem parseMany (ss : List Bytes) : Parses (Signature.parseMany ss) := by
  have hparse : ∀ s, Parses (Signature.parse s) := by
    intro s
    unfold Signature.parse
    split
    · exact error rfl
    · exact (throwIf rfl).bind fun _ => (base64Decode _).bind fun _ => (throwIf rfl).bind fun _ =>
        ok _
  induction ss with
  | nil => exact ok _
  | cons s ss ih => exact (hparse s).bind fun _ => ih.bind fun _ => ok _

theorem contentAddress (s : Bytes) : Parses (ContentAddress.parseOpt s) := by
  have halgo : ∀ rest, Parses (ContentAddress.parseHashAlgorithm s rest) := by
    intro rest
    unfold ContentAddress.parseHashAlgorithm
    split
    · exact error rfl
    · exact (parseHashAlgo _).map
  have hmethod : Parses (ContentAddress.parseContentAddressMethodPrefix s) := by
    unfold ContentAddress.parseContentAddressMethodPrefix
    repeat' split
    all_goals first | exact (halgo _).map | exact error rfl
  unfold ContentAddress.parseOpt
  split
  · exact ok _
  · refine map (hmethod.bind fun r => bind ?_ fun _ => ok _)
    exact (baseFromSize _ _).bind fun _ => parseLowLevel _ _ _

end Parses

namespace LocalStore

variable (store : StoreDirConfig)

-- ============================================================================
-- Readable databases
-- ============================================================================

/-- The rows are those of store paths. -/
def PrintedRows (db : Db) : Prop := ∀ t, db.Valid t → ∃ p, t = store.printStorePath p

/-- The texts in a row can be read back. -/
structure ReadableRow (row : ValidPathRow) : Prop where
  path : ∃ p, row.path = store.printStorePath p ∧ Readable p
  hash : ∃ h, Hash.parseAnyPrefixed (cString row.hash) = .ok h
  deriver : ∃ d, readDeriver store row.deriver = .ok d
  sigs : ∃ sigs, readSigs row.sigs = .ok sigs
  ca : ∃ ca, readCa row.ca = .ok ca

/-- All rows can be read. -/
def ReadableDb (db : Db) : Prop := ∀ row ∈ db.validPaths, ReadableRow store row

variable {store}

theorem ReadableDb.rows {db : Db} (h : ReadableDb store db) : ReadableRows store db := by
  rintro t ⟨row, hrow, rfl⟩
  exact (h row hrow).path

theorem ReadableDb.printed {db : Db} (h : ReadableDb store db) : PrintedRows store db :=
  fun t ht => (h.rows t ht).imp fun _ hp => hp.1

theorem ReadableDb.internal {db : Db} (h : ReadableDb store db) (path : StorePath) :
    ∃ r, queryPathInfoInternal store db path = .ok r := by
  unfold queryPathInfoInternal
  cases hquery : db.queryPathInfo (store.printStorePath path) with
  | none => exact ⟨none, rfl⟩
  | some row =>
      have hrow := h row (Db.queryPathInfo_eq_some.mp hquery).1
      obtain ⟨hash, hhash⟩ := hrow.hash
      obtain ⟨deriver, hderiver⟩ := hrow.deriver
      obtain ⟨sigs, hsigs⟩ := hrow.sigs
      obtain ⟨ca, hca⟩ := hrow.ca
      obtain ⟨S, hS, -⟩ := readStorePaths_printed
        fun t (ht : t ∈ db.queryReferences row.id) => h.rows t
          ((Db.mem_queryReferences (Db.queryPathInfo_eq_some.mp hquery).1).mp ht).valid.2
      have hnar : readNarHash store path row.hash = .ok hash := by
        rw [readNarHash, hhash]
      simp only [hnar, hderiver, hsigs, hca, hS, ok_bind]
      exact ⟨_, rfl⟩

/-- A column of rows that could be read. -/
theorem mem_readStorePaths {db : Db} (hprinted : PrintedRows store db) {ts : List Bytes}
    (hts : ∀ t ∈ ts, db.Valid t) {S : Finset StorePath} (h : readStorePaths store ts = .ok S)
    (q : StorePath) : q ∈ S ↔ store.printStorePath q ∈ ts := by
  obtain ⟨hall, hback⟩ := readStorePaths_eq_ok.mp h
  constructor
  · intro hq
    obtain ⟨t, ht, hparse⟩ := hback q hq
    obtain ⟨p, rfl⟩ := hprinted t (hts t ht)
    obtain ⟨-, rfl⟩ := (parse_cString_print store.toStoreDir p q).mp hparse
    exact ht
  · intro hq
    obtain ⟨r, hr, hparse⟩ := hall _ hq
    obtain ⟨-, rfl⟩ := (parse_cString_print store.toStoreDir q r).mp hparse
    exact hr

theorem parses_readStorePaths (ts : List Bytes) : Parses (readStorePaths store ts) := by
  induction ts with
  | nil => exact Parses.ok _
  | cons t ts ih =>
      exact (Parses.parseStorePath _ _).bind fun _ => ih.bind fun _ => Parses.ok _

theorem parses_internal (db : Db) (path : StorePath) :
    Parses (queryPathInfoInternal store db path) := by
  unfold queryPathInfoInternal
  split
  · exact Parses.ok _
  · next row _ =>
      have hnar : Parses (readNarHash store path row.hash) := by
        unfold readNarHash
        split
        · exact Parses.error rfl
        · exact Parses.parseAnyPrefixed _
      have hderiver : Parses (readDeriver store row.deriver) := by
        unfold readDeriver
        split
        · exact Parses.ok _
        · exact (Parses.parseStorePath _ _).map
      have hsigs : Parses (readSigs row.sigs) := by
        unfold readSigs
        split
        · exact Parses.ok _
        · exact Parses.parseMany _
      have hca : Parses (readCa row.ca) := by
        unfold readCa
        split
        · exact Parses.ok _
        · exact Parses.contentAddress _
      exact hnar.bind fun _ => hderiver.bind fun _ => hsigs.bind fun _ => hca.bind fun _ =>
        (parses_readStorePaths _).bind fun _ => Parses.ok _

variable (store) in
/-- The row of a path names this deriver, or none. -/
def DeriverIs (db : Db) (path : StorePath) (deriver : Option StorePath) : Prop :=
  ∃ row, db.queryPathInfo (store.printStorePath path) = some row ∧
    readDeriver store row.deriver = .ok deriver

theorem DeriverIs.unique {db : Db} {path : StorePath} {d d' : Option StorePath}
    (h : DeriverIs store db path d) (h' : DeriverIs store db path d') : d = d' := by
  obtain ⟨row, hrow, hread⟩ := h
  obtain ⟨row', hrow', hread'⟩ := h'
  obtain rfl := Option.some.inj (hrow.symm.trans hrow')
  exact Except.ok.inj (hread.symm.trans hread')

variable (store) in
/-- What is told about a path is right, as far as its validity and its
    references go, and its deriver if that matters. -/
def Told (derivers : Bool) (db : Db) (path : StorePath) : Option ValidPathInfo → Prop
  | none => ¬ db.Valid (store.printStorePath path)
  | some info => info.path = path ∧ db.Valid (store.printStorePath path) ∧
      (∀ q, q ∈ info.references ↔ PathRefers store db path q) ∧
      (derivers = true → DeriverIs store db path info.deriver)

/-- What is read for a path is right. -/
theorem told_of_internal {db : Db} (hprinted : PrintedRows store db) {path : StorePath}
    {r : Option ValidPathInfo} (derivers : Bool) (h : queryPathInfoInternal store db path = .ok r) :
    Told store derivers db path r := by
  unfold queryPathInfoInternal at h
  cases hquery : db.queryPathInfo (store.printStorePath path) with
  | none =>
      rw [hquery] at h
      cases h
      exact Db.queryPathInfo_eq_none.mp hquery
  | some row =>
      rw [hquery] at h
      obtain ⟨hmem, hpath⟩ := Db.queryPathInfo_eq_some.mp hquery
      simp only [NixStore.bind_eq_ok, pure_eq_ok, Except.ok.injEq] at h
      obtain ⟨_, -, _, hderiver, _, -, _, -, references, hread, rfl⟩ := h
      refine ⟨rfl, Db.valid_of_query hquery, fun q => ?_, fun _ => ⟨row, hquery, hderiver⟩⟩
      rw [mem_readStorePaths hprinted (fun t ht => ((Db.mem_queryReferences hmem).mp ht).valid.2)
        hread, Db.mem_queryReferences hmem, hpath]
      rfl

-- ============================================================================
-- Coherent caches
-- ============================================================================

variable (store) in
/-- A store over a database, with a cache that agrees with it about which paths
    are valid and what they refer to (and about their derivers). -/
structure CoherentOver (derivers : Bool) (db : Db) (s : LocalStore) : Prop where
  db_eq : s.db = db
  told : ∀ p v, s.pathInfoCache.find p = some v → Told store derivers db p v

/-- What an exception of a query about a path means. -/
def QueryFails (store : StoreDirConfig) (db : Db) (p : StorePath) : Error → Prop
  | .invalidPath _ => ¬ db.Valid (store.printStorePath p)
  | e => e.passes = true ∧ ¬ ReadableDb store db

theorem queryFails_of_passes {db : Db} {p : StorePath} {e : Error} (h : e.passes = true)
    (hread : ¬ ReadableDb store db) : QueryFails store db p e := by
  unfold QueryFails
  split
  · cases h
  · exact ⟨h, hread⟩

namespace CoherentOver

variable {derivers : Bool} {db : Db}

theorem cacheGet (path : StorePath) :
    Spec (CoherentOver store derivers db) (cacheGet path)
      (fun found s => CoherentOver store derivers db s ∧ ∀ v, found = some v → Told store derivers db path v)
      (fun _ _ => False) := by
  intro s hs
  refine ⟨⟨hs.db_eq, fun p v hp => ?_⟩, fun v hv => ?_⟩
  · exact hs.told p v ((s.pathInfoCache.find_get path p).symm.trans hp)
  · exact hs.told path v ((s.pathInfoCache.get_fst path).symm.trans hv)

/-- `isValidPath` is right. -/
theorem isValidPath (path : StorePath) :
    Spec (CoherentOver store derivers db) (isValidPath store path)
      (fun valid s => CoherentOver store derivers db s ∧
        (valid = true ↔ db.Valid (store.printStorePath path)))
      (fun _ _ => False) := by
  refine Spec.seq (cacheGet path) fun found => ?_
  match found with
  | some none =>
      exact Spec.ret fun s hs => ⟨hs.1, nofun, fun hvalid => absurd hvalid (hs.2 none rfl)⟩
  | some (some info) =>
      exact Spec.ret fun s hs => ⟨hs.1, fun _ => (hs.2 (some info) rfl).2.1, fun _ => rfl⟩
  | none =>
      intro s hs
      refine ⟨hs.1, ?_⟩
      rw [← hs.1.db_eq]
      exact Db.isSome_queryPathInfo

/-- `queryPathInfo` is right about the references. -/
theorem queryPathInfo (hprinted : PrintedRows store db) (path : StorePath) :
    Spec (CoherentOver store derivers db) (queryPathInfo store path)
      (fun info s => CoherentOver store derivers db s ∧ Told store derivers db path (some info))
      (fun e s => CoherentOver store derivers db s ∧ QueryFails store db path e) := by
  refine Spec.seq ((cacheGet path).weaken (fun _ h => h) (fun _ _ h => h)
    fun _ _ h => h.elim) fun found => ?_
  match found with
  | some none => exact Spec.raise fun s hs => ⟨hs.1, hs.2 none rfl⟩
  | some (some info) => exact Spec.ret fun s hs => ⟨hs.1, hs.2 (some info) rfl⟩
  | none =>
      refine Spec.at_state fun s hs => ?_
      refine Spec.seq ((onDb_query _ s).weaken (fun _ h => h) (fun _ _ h => h) ?_) fun info => ?_
      · rintro e _ ⟨he, rfl⟩
        refine ⟨hs.1, queryFails_of_passes (parses_internal _ _ e he) fun hread => ?_⟩
        obtain ⟨r, hr⟩ := hread.internal path
        rw [hs.1.db_eq, hr] at he
        cases he
      refine Spec.seq (Q := fun _ t => CoherentOver store derivers db t ∧ Told store derivers db path info) ?_ ?_
      · rintro _ ⟨hread, rfl⟩
        rw [hs.1.db_eq] at hread
        have htold := told_of_internal hprinted derivers hread
        refine ⟨⟨hs.1.db_eq, fun p v hp => ?_⟩, htold⟩
        by_cases heq : p = path
        · subst heq
          exact LruCache.find_upsert_self_eq hp ▸ htold
        · exact hs.1.told p v (LruCache.find_of_find_upsert heq hp)
      · intro _
        cases info with
        | none => exact Spec.raise fun t ht => ht
        | some i =>
            refine Spec.cond (fun _ => Spec.ret fun t ht => ht) fun hgood => ?_
            refine Spec.raise fun t ht => absurd ?_ hgood
            rw [ht.2.1]
            simp [goodStorePath]

/-- So are the children that `topoSortPaths` looks up. -/
theorem pathReferences (hprinted : PrintedRows store db) (path : StorePath) :
    Spec (CoherentOver store derivers db) (pathReferences store path)
      (fun l s => CoherentOver store derivers db s ∧ (∀ q ∈ l, PathRefers store db path q) ∧
        ∀ q, PathRefers store db path q → q ∈ l)
      (fun e s => CoherentOver store derivers db s ∧ e.passes = true ∧ ¬ ReadableDb store db) := by
  intro s hs
  have hrun := Spec.seq (queryPathInfo hprinted path) (fun info => Spec.ret (a := inOrder info.references)
    (Q := fun l t => CoherentOver store derivers db t ∧ ∀ q, q ∈ l ↔ PathRefers store db path q)
    fun t ht => ⟨ht.1, fun q => mem_inOrder.trans (ht.2.2.2.1 q)⟩) s hs
  unfold LocalStore.pathReferences orInvalid
  revert hrun
  cases (LocalStore.queryPathInfo store path >>= fun info => pure (inOrder info.references) :
      StoreM (List StorePath)) s with
  | ok l t => exact fun hrun => ⟨hrun.1, fun q hq => (hrun.2 q).mp hq, fun q hq => (hrun.2 q).mpr hq⟩
  | error e t =>
      rintro ⟨ht, hfails⟩
      cases e with
      | invalidPath msg =>
          exact ⟨ht, fun q hq => absurd hq List.not_mem_nil, fun q hq => absurd hq.valid.1 hfails⟩
      | _ => exact ⟨ht, hfails⟩

/-- A column of paths that is read from the database. -/
theorem readColumn (hprinted : PrintedRows store db) (column : Db → List Bytes)
    (hcolumn : ∀ t ∈ column db, db.Valid t) :
    Spec (CoherentOver store derivers db)
      (onDb fun db => (readStorePaths store (column db)).map (·, db))
      (fun S s => CoherentOver store derivers db s ∧ ∀ q, q ∈ S ↔ store.printStorePath q ∈ column db)
      (fun e s => CoherentOver store derivers db s ∧ e.passes = true ∧ ¬ ReadableDb store db) := by
  refine Spec.at_state fun s hs => ?_
  refine (onDb_query _ s).weaken (fun _ h => h) ?_ ?_
  · rintro S _ ⟨hread, rfl⟩
    rw [hs.db_eq] at hread
    exact ⟨hs, mem_readStorePaths hprinted hcolumn hread⟩
  · rintro e _ ⟨he, rfl⟩
    refine ⟨hs, parses_readStorePaths _ e he, fun hread => ?_⟩
    obtain ⟨S, hS, -⟩ := readStorePaths_printed fun t ht => hread.rows t (hcolumn t ht)
    rw [hs.db_eq, hS] at he
    cases he

/-- `queryReferrers` is right. -/
theorem queryReferrers (hprinted : PrintedRows store db) (path : StorePath) :
    Spec (CoherentOver store derivers db) (onDb fun db => (queryReferrers store db path).map (·, db))
      (fun S s => CoherentOver store derivers db s ∧ ∀ q, q ∈ S ↔ PathRefers store db q path)
      (fun e s => CoherentOver store derivers db s ∧ e.passes = true ∧ ¬ ReadableDb store db) := by
  refine (readColumn hprinted (fun db => db.queryReferrers (store.printStorePath path))
    fun t ht => (Db.mem_queryReferrers.mp ht).valid.1).weaken (fun _ h => h) ?_ fun _ _ h => h
  exact fun S s hs => ⟨hs.1, fun q => (hs.2 q).trans Db.mem_queryReferrers⟩

theorem queryValidDerivers (hprinted : PrintedRows store db) (path : StorePath) :
    Spec (CoherentOver store derivers db) (onDb fun db => (queryValidDerivers store db path).map (·, db))
      (fun S s => CoherentOver store derivers db s ∧
        ∀ q, q ∈ S ↔ store.printStorePath q ∈ db.queryValidDerivers (store.printStorePath path))
      (fun e s => CoherentOver store derivers db s ∧ e.passes = true ∧ ¬ ReadableDb store db) := by
  refine readColumn hprinted (fun db => db.queryValidDerivers (store.printStorePath path)) ?_
  intro t ht
  obtain ⟨row, hrow, rfl⟩ := List.mem_map.mp ht
  exact ⟨row, (List.mem_filter.mp hrow).1, rfl⟩

theorem invalidatePath_run (path : StorePath) (s : LocalStore) :
    LocalStore.invalidatePath store path s =
      match s.db.invalidatePath (store.printStorePath path) with
      | .ok db => .ok () { s with db, pathInfoCache := s.pathInfoCache.erase path }
      | .error e => .error e s := by
  rw [LocalStore.invalidatePath, bind_run, onDb]
  cases s.db.invalidatePath (store.printStorePath path) with
  | ok db => rfl
  | error e => rfl

/-- A path that is dropped from the database and from the cache. -/
theorem invalidated {db' : Db} {path : StorePath} {s s' : LocalStore}
    (h : CoherentOver store derivers db s) (hdb : db.invalidatePath (store.printStorePath path) = .ok db')
    (hdb' : s'.db = db') (hcache : s'.pathInfoCache = s.pathInfoCache.erase path) :
    CoherentOver store derivers db' s' where
  db_eq := hdb'
  told := by
    intro p v hp
    rw [hcache] at hp
    have hne : p ≠ path := by
      rintro rfl
      rw [LruCache.find_erase_self] at hp
      cases hp
    rw [LruCache.find_erase_of_ne _ hne] at hp
    have hne' : store.printStorePath p ≠ store.printStorePath path :=
      fun heq => hne (store.printStorePath_inj heq)
    have htold := h.told p v hp
    cases v with
    | none => exact fun hvalid => htold ((Db.valid_invalidate hdb _).mp hvalid).1
    | some info =>
        obtain ⟨hpath, hvalid, hrefs, hderiver⟩ := htold
        refine ⟨hpath, (Db.valid_invalidate hdb _).mpr ⟨hvalid, hne'⟩, fun q => ?_, fun h => ?_⟩
        swap
        · obtain ⟨row, hrow, hread⟩ := hderiver h
          refine ⟨row, ?_, hread⟩
          rw [Db.queryPathInfo_invalidate hdb, if_neg hne', hrow]
        rw [hrefs q]
        refine ⟨fun href => (Db.refers_invalidate hdb _ _).mpr ⟨href, hne', fun heq => hne' ?_⟩,
          fun href => ((Db.refers_invalidate hdb _ _).mp href).1⟩
        -- nothing else refers to the path that is dropped
        unfold PathRefers at href
        rw [heq] at href
        exact Db.unreferenced_of_invalidate hdb href

/-- `invalidatePathChecked` drops the path, or is refused because something
    else refers to it. -/
theorem invalidatePathChecked (hprinted : PrintedRows store db) (path : StorePath) :
    Spec (CoherentOver store derivers db) (invalidatePathChecked store path)
      (fun _ s => ∃ db', db.invalidatePath (store.printStorePath path) = .ok db' ∧
        CoherentOver store derivers db' s)
      (fun e s => CoherentOver store derivers db s ∧
        ((∃ q, q ≠ path ∧ PathRefers store db q path) ∨
          e.passes = true ∧ ¬ ReadableDb store db)) := by
  refine Spec.at_state fun s hs => ?_
  refine (withTxn_spec (E := fun e t => t = s ∧
    ((∃ q, q ≠ path ∧ PathRefers store db q path) ∨
      e.passes = true ∧ ¬ ReadableDb store db)) ?_).weaken (fun _ h => h) (fun _ _ h => h) ?_
  · refine Spec.seq (Q := fun valid t => t = s ∧ (valid = true ↔
      db.Valid (store.printStorePath path))) ?_ fun valid => Spec.cond ?_ ?_
    · rintro _ rfl
      refine ⟨rfl, ?_⟩
      rw [← hs.db_eq]
      exact Db.isSome_queryPathInfo
    · intro _
      rintro _ ⟨rfl, -⟩
      rename_i s
      have hquery := queryReferrers hprinted path s hs
      have hsame := onDb_query (fun db => LocalStore.queryReferrers store db path) s s rfl
      unfold invalidateUnused
      rw [bind_run]
      cases hrun : (onDb fun db => (LocalStore.queryReferrers store db path).map (·, db) :
          StoreM (Finset StorePath)) s with
      | error e t =>
          rw [hrun] at hquery hsame
          exact ⟨hsame.2, .inr hquery.2⟩
      | ok referrers t =>
          rw [hrun] at hquery hsame
          obtain ⟨-, rfl⟩ := hsame
          -- PathInUse, or a row that nothing else refers to
          by_cases hused : referrers.erase path ≠ ∅
          · obtain ⟨q, hq⟩ := Finset.nonempty_iff_ne_empty.mpr hused
            obtain ⟨hne, hq⟩ := Finset.mem_erase.mp hq
            dsimp only
            rw [throwIf, if_pos hused, bind_run, fromExcept_error]
            exact ⟨rfl, .inl ⟨q, hne, (hquery.2 q).mp hq⟩⟩
          · have hfree : ∀ u, db.Refers u (store.printStorePath path) →
                u = store.printStorePath path := by
              intro u hu
              obtain ⟨q, rfl⟩ := hprinted u hu.valid.1
              by_contra hne
              refine hused (Finset.nonempty_iff_ne_empty.mp ⟨q, Finset.mem_erase.mpr ⟨?_, ?_⟩⟩)
              · exact fun heq => hne (by rw [heq])
              · exact (hquery.2 q).mpr hu
            obtain ⟨db', hdb'⟩ := Db.invalidatePath_of_unreferenced hfree
            dsimp only
            rw [throwIf, if_neg hused, bind_run, fromExcept_ok]
            dsimp only
            rw [invalidatePath_run, hs.db_eq, hdb']
            exact ⟨db', rfl, hs.invalidated hdb' rfl rfl⟩
    · intro hvalid
      refine Spec.ret fun t ht => ⟨db, ?_, ht.1 ▸ hs⟩
      have hinvalid : ¬ db.Valid (store.printStorePath path) := fun h => hvalid (ht.2.mpr h)
      rw [Db.invalidatePath, Db.queryPathInfo_eq_none.mpr hinvalid]
  · rintro e _ ⟨t, ⟨rfl, he⟩, rfl⟩
    exact ⟨hs, he⟩

end CoherentOver
end LocalStore

end NixStore
