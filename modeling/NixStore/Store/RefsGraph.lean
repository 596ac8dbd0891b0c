/-
  NixStore.Store.RefsGraph

  The reference graph over whole runs of the store.

  `registerValidPaths` sorts the infos of one call, and does not even look at
  what the sort says.  Infos that refer to each other are therefore registered;
  an update of a path that is already valid can close a cycle through references
  recorded earlier; and a call that throws leaves its infos in the cache, from
  where `topoSortPaths` reads them.  As long as no call does any of this, the
  graph stays acyclic and no sort reports a cycle (`reaches_acyclic`).
-/

import NixStore.Store.ReadBack

namespace NixStore
namespace LocalStore

open Effect OrderedSet Wire Relation

variable (store : StoreDirConfig)

-- ============================================================================
-- Graphs
-- ============================================================================

/-- The references of the cached infos, between the texts of paths. -/
def CachedRefers (s : LocalStore) (t u : Bytes) : Prop :=
  ∃ p info, s.pathInfoCache.find p = some (some info) ∧ t = store.printStorePath p ∧
    ∃ q ∈ info.references, u = store.printStorePath q

/-- All references that a query may return: recorded ones and cached ones. -/
def KnownRefers (s : LocalStore) (t u : Bytes) : Prop :=
  s.db.Refers t u ∨ CachedRefers store s t u

/-- The references of some infos, between the texts of paths. -/
def InfoRefers (infos : List ValidPathInfo) (t u : Bytes) : Prop :=
  ∃ i ∈ infos, t = store.printStorePath i.path ∧ ∃ q ∈ i.references, u = store.printStorePath q

/-- `topoSortPaths` throws for a cycle. -/
def ReportsCycle (s : LocalStore) (paths : Finset StorePath) : Prop :=
  ∃ c s', TopoSort.topoSort paths (pathReferences store) s = .ok (.error c) s'

/-- The condition on a call of `registerValidPaths`.  If the infos are
    accepted, none of them gives its path a new reference from which the path
    itself can be reached; if they are refused, those entered in the cache by
    then close no cycle. -/
structure ClosesNoCycle (s : LocalStore) (infos : ValidPathInfos) : Prop where
  accepted : Accepts store s.db infos → ∀ i ∈ infos.infos, ∀ q ∈ i.references, q ≠ i.path →
    ¬ s.db.Refers (store.printStorePath i.path) (store.printStorePath q) →
    ¬ ReflTransGen (ProperEdge fun t u => s.db.Refers t u ∨ textRefers store infos t u)
      (store.printStorePath q) (store.printStorePath i.path)
  refused : ¬ Accepts store s.db infos → Acyclic fun t u =>
    KnownRefers store s t u ∨ InfoRefers store (entered store s.db infos.infos) t u

-- ============================================================================
-- Runs
-- ============================================================================

/-- The calls of a run. -/
inductive Call where
  | registerValidPaths (now : Int) (infos : ValidPathInfos)
  | invalidatePathChecked (path : StorePath)
  | queryPathInfo (path : StorePath)
  | isValidPath (path : StorePath)

/-- The state after a call, successful or failing. -/
def Call.run (s : LocalStore) : Call → LocalStore
  | .registerValidPaths now infos => final (LocalStore.registerValidPaths store now infos) s
  | .invalidatePathChecked path => final (LocalStore.invalidatePathChecked store path) s
  | .queryPathInfo path => final (LocalStore.queryPathInfo store path) s
  | .isValidPath path => final (LocalStore.isValidPath store path) s

/-- The condition on a call. -/
def Call.ClosesNoCycle (s : LocalStore) : Call → Prop
  | .registerValidPaths _ infos => LocalStore.ClosesNoCycle store s infos
  | _ => True

/-- The states that runs from an empty database lead to when each call meets
    the condition. -/
inductive Reaches : LocalStore → Prop where
  | fresh (pathInfoCacheSize : Nat) : Reaches (fresh pathInfoCacheSize)
  | call {s : LocalStore} (c : Call) : Reaches s → c.ClosesNoCycle store s →
      Reaches (c.run store s)

/-- What every reached state has: rows are paths, a cached info of a valid path
    has no other references than its row, and nothing known is cyclic. -/
structure GraphInv (s : LocalStore) : Prop where
  printed : ∀ t, s.db.Valid t → ∃ p, t = store.printStorePath p
  cached : ∀ t u, CachedRefers store s t u → s.db.Valid t → s.db.Refers t u
  acyclic : Acyclic (KnownRefers store s)

variable {store}

variable (store) in
theorem printStorePath_injective : Function.Injective store.printStorePath :=
  fun _ _ h => store.printStorePath_inj h

theorem graphInv_fresh (n : Nat) : GraphInv store (fresh n) where
  printed := by
    rintro t ⟨r, hr, -⟩
    exact absurd hr List.not_mem_nil
  cached := by
    rintro t u ⟨p, info, hfind, -⟩
    cases hfind
  acyclic := by
    refine Acyclic.of_rank (fun _ => 0) ?_
    rintro t u (⟨r, hr, -⟩ | ⟨p, info, hfind, -⟩)
    · exact absurd hr List.not_mem_nil
    · cases hfind

-- ============================================================================
-- A registration
-- ============================================================================

/-- What is cached after some infos have been entered was cached before or is
    one of them. -/
theorem cachedRefers_cacheAfter {s s' : LocalStore} {infos : ValidPathInfos}
    (hcache : s'.pathInfoCache = cacheAfter s.pathInfoCache (entered store s.db infos.infos))
    {t u : Bytes} (h : CachedRefers store s' t u) :
    InfoRefers store (entered store s.db infos.infos) t u ∨
      (CachedRefers store s t u ∧
        ∀ i ∈ entered store s.db infos.infos, t ≠ store.printStorePath i.path) := by
  obtain ⟨p, info, hfind, rfl, q, hq, rfl⟩ := h
  have hnodup := nodup_newEntries store s.db infos
  rw [hcache] at hfind
  by_cases hp : p ∈ (newEntries store s.db infos).map Prod.fst
  · obtain ⟨_, hmem, rfl⟩ := List.mem_map.mp hp
    obtain ⟨i, hi, rfl⟩ := List.mem_map.mp hmem
    have hfound := s.pathInfoCache.find_upsertAll_of_mem hnodup hmem
    have heq : (if s.pathInfoCache.Displaced (newEntries store s.db infos) i.path then none
        else some (some i)) = some (some info) := hfound.symm.trans hfind
    split at heq
    · cases heq
    · cases heq
      exact Or.inl ⟨info, hi, rfl, q, hq, rfl⟩
  · have hfound := s.pathInfoCache.find_upsertAll_of_not_mem hnodup hp
    have heq : (if s.pathInfoCache.Displaced (newEntries store s.db infos) p then none
        else s.pathInfoCache.find p) = some (some info) := hfound.symm.trans hfind
    split at heq
    · cases heq
    · refine Or.inr ⟨⟨p, info, heq, rfl, q, hq, rfl⟩, ?_⟩
      intro i hi hpath
      apply hp
      rw [store.printStorePath_inj hpath]
      exact List.mem_map_of_mem (f := Prod.fst)
        (List.mem_map_of_mem (f := fun i => (i.path, some i)) hi)

/-- The recorded references stay acyclic. -/
theorem acyclic_committed {s : LocalStore} {now : Int} {infos : ValidPathInfos} {db' : Db}
    (hinv : GraphInv store s) (hsafe : ClosesNoCycle store s infos)
    (hacc : Accepts store s.db infos) (hdb : Committed store now s.db infos db') :
    Acyclic db'.Refers := by
  have hold : Acyclic s.db.Refers := hinv.acyclic.mono fun _ _ h => Or.inl h
  have hextend : Acyclic fun t u => s.db.Refers t u ∨ textRefers store infos t u := by
    refine Acyclic.extend hold ?_
    rintro t u ⟨i, hi, rfl, q, hq, rfl⟩ hnew hne
    exact hsafe.accepted hacc i hi q hq (fun heq => hne (by rw [heq])) hnew
  exact hextend.mono fun t u h => (hdb.refers t u).mp h

theorem Committed.valid {now : Int} {db db' : Db} {infos : ValidPathInfos}
    (h : Committed store now db infos db') (t : Bytes) :
    db'.Valid t ↔ db.Valid t ∨ ∃ i ∈ infos.infos, t = store.printStorePath i.path := by
  by_cases hin : ∃ i ∈ infos.infos, t = store.printStorePath i.path
  · refine ⟨fun _ => Or.inr hin, fun _ => ?_⟩
    obtain ⟨i, hi, rfl⟩ := hin
    by_cases hvalid : db.Valid (store.printStorePath i.path)
    · obtain ⟨row, hrow⟩ := hvalid.query
      exact Db.valid_of_query (h.updated i hi row hrow)
    · obtain ⟨id, hid⟩ := h.added i hi hvalid
      exact Db.valid_of_query hid
  · have hother := h.other t fun i hi heq => hin ⟨i, hi, heq.symm⟩
    rw [← Db.isSome_queryPathInfo, hother, Db.isSome_queryPathInfo]
    exact ⟨Or.inl, fun hor => hor.resolve_right hin⟩

/-- A call that returns. -/
theorem graphInv_committed {s s' : LocalStore} {now : Int} {infos : ValidPathInfos}
    (hinv : GraphInv store s) (hsafe : ClosesNoCycle store s infos)
    (hacc : Accepts store s.db infos)
    (hcache : s'.pathInfoCache = cacheAfter s.pathInfoCache (entered store s.db infos.infos))
    (hdb : Committed store now s.db infos s'.db) : GraphInv store s' := by
  have hentered : ∀ t u, InfoRefers store (entered store s.db infos.infos) t u →
      s'.db.Refers t u := by
    rintro t u ⟨i, hi, ht⟩
    exact (hdb.refers t u).mpr (Or.inr ⟨i, (mem_entered hi).1, ht⟩)
  have hcached : ∀ t u, CachedRefers store s' t u → s'.db.Valid t → s'.db.Refers t u := by
    intro t u hcr hvalid
    rcases cachedRefers_cacheAfter hcache hcr with hin | ⟨hold, hother⟩
    · exact hentered t u hin
    · have hbefore : s.db.Valid t := by
        -- a path that the call made valid is one that it entered
        rcases (hdb.valid t).mp hvalid with hbefore | ⟨i, hi, rfl⟩
        · exact hbefore
        · by_contra hnew
          exact hother i ((mem_entered_of_accepts hacc hi).mpr hnew) rfl
      exact (hdb.refers t u).mpr (Or.inl (hinv.cached t u hold hbefore))
  refine ⟨?_, hcached, ?_⟩
  · intro t ht
    rcases (hdb.valid t).mp ht with hbefore | ⟨i, -, rfl⟩
    · exact hinv.printed t hbefore
    · exact ⟨i.path, rfl⟩
  · refine Acyclic.of_parts (V := s'.db.Valid) ?_ ?_ ?_
    · rintro t u (href | hcr) hvalid
      · exact href.valid.2
      · exact (hcached t u hcr hvalid).valid.2
    · refine (acyclic_committed hinv hsafe hacc hdb).mono ?_
      rintro t u ⟨href | hcr, hvalid⟩
      · exact href
      · exact hcached t u hcr hvalid
    · refine hinv.acyclic.mono ?_
      rintro t u ⟨href | hcr, hinvalid⟩
      · exact absurd href.valid.1 hinvalid
      · rcases cachedRefers_cacheAfter hcache hcr with hin | ⟨hold, -⟩
        · exact absurd (hentered t u hin).valid.1 hinvalid
        · exact Or.inr hold

/-- A call that throws: the database is as it was, the cache is not. -/
theorem graphInv_refused {s s' : LocalStore} {infos : ValidPathInfos}
    (hinv : GraphInv store s) (hsafe : ClosesNoCycle store s infos)
    (hacc : ¬ Accepts store s.db infos)
    (hcache : s'.pathInfoCache = cacheAfter s.pathInfoCache (entered store s.db infos.infos))
    (hdb : s'.db = s.db) : GraphInv store s' := by
  refine ⟨?_, ?_, ?_⟩
  · rw [hdb]
    exact hinv.printed
  · rw [hdb]
    intro t u hcr hvalid
    rcases cachedRefers_cacheAfter hcache hcr with ⟨i, hi, rfl, -⟩ | ⟨hold, -⟩
    · exact absurd hvalid (mem_entered hi).2.2
    · exact hinv.cached t u hold hvalid
  · refine (hsafe.refused hacc).mono ?_
    rintro t u (href | hcr)
    · rw [hdb] at href
      exact Or.inl (Or.inl href)
    · rcases cachedRefers_cacheAfter hcache hcr with hin | ⟨hold, -⟩
      · exact Or.inr hin
      · exact Or.inl (Or.inr hold)

-- ============================================================================
-- An invalidation
-- ============================================================================

theorem onDb_outcome {α : Type} (f : Db → Except Error (α × Db)) (s : LocalStore) :
    Run s (onDb f)
      (fun a s' => f s.db = .ok (a, s'.db) ∧ s'.pathInfoCache = s.pathInfoCache)
      (fun e s' => f s.db = .error e ∧ s' = s) := by
  rintro _ rfl
  rename_i s
  rw [onDb]
  cases f s.db with
  | ok r => exact ⟨rfl, rfl⟩
  | error e => exact ⟨rfl, rfl⟩

/-- A query leaves the store as it is. -/
theorem onDb_query {α : Type} (f : Db → Except Error α) (s : LocalStore) :
    Run s (onDb fun db => (f db).map (·, db))
      (fun a s' => f s.db = .ok a ∧ s' = s) (fun e s' => f s.db = .error e ∧ s' = s) := by
  rintro _ rfl
  rename_i s
  rw [onDb]
  cases f s.db with
  | ok a => exact ⟨rfl, rfl⟩
  | error e => exact ⟨rfl, rfl⟩

theorem invalidatePath_outcome (path : StorePath) (s : LocalStore) :
    Run s (invalidatePath store path)
      (fun _ s' => s.db.invalidatePath (store.printStorePath path) = .ok s'.db ∧
        s'.pathInfoCache = s.pathInfoCache.erase path)
      (fun _ s' => s' = s) := by
  refine Spec.seq ((onDb_outcome _ s).weaken (fun _ h => h) (fun _ _ h => h)
    fun _ _ h => h.2) fun _ => ?_
  rintro t ⟨hdb, hcache⟩
  refine ⟨?_, congrArg (·.erase path) hcache⟩
  cases hrun : s.db.invalidatePath (store.printStorePath path) with
  | ok db' =>
      rw [hrun] at hdb
      cases hdb
      rfl
  | error e =>
      rw [hrun] at hdb
      cases hdb

theorem query_db (db : Db) {α : Type} (f : Db → Except Error α) :
    Keeps (fun t : LocalStore => t.db = db) (onDb fun db => (f db).map (·, db)) := by
  intro s hs
  have hrun := onDb_query f s s rfl
  cases hx : (onDb fun db => (f db).map (·, db) : StoreM α) s with
  | ok a s' =>
      rw [hx] at hrun
      exact (congrArg LocalStore.db hrun.2).trans hs
  | error e s' =>
      rw [hx] at hrun
      exact (congrArg LocalStore.db hrun.2).trans hs

theorem cacheGet_db (db : Db) (path : StorePath) :
    Keeps (fun t : LocalStore => t.db = db) (cacheGet path) := fun _ hs => hs

variable (store) in
theorem isValidPath_db (db : Db) (path : StorePath) :
    Keeps (fun t : LocalStore => t.db = db) (isValidPath store path) := by
  refine Keeps.seq (cacheGet_db db path) fun found => ?_
  cases found with
  | some value => exact Keeps.ret _
  | none => exact fun _ hs => hs

variable (store) in
theorem queryPathInfo_db (db : Db) (path : StorePath) :
    Keeps (fun t : LocalStore => t.db = db) (queryPathInfo store path) := by
  refine Keeps.seq (cacheGet_db db path) fun found => ?_
  match found with
  | some none => exact Keeps.raise _
  | some (some info) => exact Keeps.ret _
  | none =>
      refine Keeps.seq (query_db db fun db => queryPathInfoInternal store db path) fun info => ?_
      refine Keeps.seq (fun _ hs => hs) fun _ => ?_
      cases info with
      | none => exact Keeps.raise _
      | some i => exact Keeps.cond (Keeps.ret _) (Keeps.raise _)

/-- `invalidatePathChecked` drops the path from the database and the cache, or
    does nothing with a path that is not valid. -/
theorem invalidatePathChecked_outcome (path : StorePath) (s : LocalStore) :
    Run s (invalidatePathChecked store path)
      (fun _ s' => (¬ s.db.Valid (store.printStorePath path) ∧ s' = s) ∨ (s.db.invalidatePath (store.printStorePath path) = .ok s'.db ∧
        s'.pathInfoCache = s.pathInfoCache.erase path))
      (fun _ s' => s' = s) := by
  refine (withTxn_spec (E := fun _ s' => s' = s) ?_).weaken (fun _ h => h) (fun _ _ h => h) ?_
  · refine Spec.seq (Q := fun valid t => t = s ∧
      (valid = true ↔ s.db.Valid (store.printStorePath path))) ?_ fun valid => Spec.cond ?_ ?_
    · rintro _ rfl
      exact ⟨rfl, Db.isSome_queryPathInfo⟩
    · intro _
      refine Spec.seq ((onDb_query _ s).weaken (fun _ h => h.1) (fun _ _ h => h.2)
        fun _ _ h => h.2) fun referrers => ?_
      refine Spec.seq (Spec.lift (fun _ _ _ h => h) fun _ _ _ h => h) fun _ => ?_
      exact (invalidatePath_outcome path s).weaken (fun _ h => h) (fun _ _ h => Or.inr h)
        fun _ _ h => h
    · intro hinvalid
      exact Spec.ret fun _ h => Or.inl ⟨fun hvalid => hinvalid (h.2.mpr hvalid), h.1⟩
  · rintro e s' ⟨s'', rfl, rfl⟩
    rfl

/-- To the database it does what `invalidatePath` does, or nothing. -/
theorem invalidatePathChecked_db (path : StorePath) (s : LocalStore) :
    Run s (invalidatePathChecked store path)
      (fun _ s' => s.db.invalidatePath (store.printStorePath path) = .ok s'.db)
      (fun _ s' => s'.db = s.db) := by
  refine (invalidatePathChecked_outcome path s).weaken (fun _ h => h) ?_ fun _ _ h =>
    congrArg LocalStore.db h
  rintro _ s' (⟨hinvalid, rfl⟩ | ⟨hdb, -⟩)
  · rw [Db.invalidatePath, Db.queryPathInfo_eq_none.mpr hinvalid]
  · exact hdb

theorem graphInv_invalidated {s s' : LocalStore} {path : StorePath} (hinv : GraphInv store s)
    (hdb : s.db.invalidatePath (store.printStorePath path) = .ok s'.db)
    (hcache : s'.pathInfoCache = s.pathInfoCache.erase path) : GraphInv store s' := by
  have hcached : ∀ t u, CachedRefers store s' t u →
      CachedRefers store s t u ∧ t ≠ store.printStorePath path := by
    rintro t u ⟨p, info, hfind, rfl, q, hq, rfl⟩
    rw [hcache] at hfind
    have hne : p ≠ path := by
      rintro rfl
      rw [LruCache.find_erase_self] at hfind
      cases hfind
    rw [LruCache.find_erase_of_ne _ hne] at hfind
    exact ⟨⟨p, info, hfind, rfl, q, hq, rfl⟩, fun heq => hne (store.printStorePath_inj heq)⟩
  refine ⟨?_, ?_, ?_⟩
  · intro t ht
    exact hinv.printed t ((Db.valid_invalidate hdb t).mp ht).1
  · intro t u hcr hvalid
    obtain ⟨hold, hne⟩ := hcached t u hcr
    have href := hinv.cached t u hold ((Db.valid_invalidate hdb t).mp hvalid).1
    refine (Db.refers_invalidate hdb t u).mpr ⟨href, hne, ?_⟩
    rintro rfl
    exact hne (Db.unreferenced_of_invalidate hdb href)
  · refine hinv.acyclic.mono ?_
    rintro t u (href | hcr)
    · exact Or.inl ((Db.refers_invalidate hdb t u).mp href).1
    · exact Or.inr (hcached t u hcr).1

-- ============================================================================
-- Queries
-- ============================================================================

variable (store) in
/-- A state that queries on `s` lead to: nothing is known that was not known
    before. -/
structure Queried (s s' : LocalStore) : Prop where
  db_eq : s'.db = s.db
  cached : ∀ t u, CachedRefers store s' t u → KnownRefers store s t u

theorem Queried.refl (s : LocalStore) : Queried store s s := ⟨rfl, fun _ _ h => Or.inr h⟩

theorem Queried.graphInv {s s' : LocalStore} (h : Queried store s s') (hinv : GraphInv store s) :
    GraphInv store s' := by
  refine ⟨?_, ?_, ?_⟩
  · rw [h.db_eq]
    exact hinv.printed
  · rw [h.db_eq]
    intro t u hcr hvalid
    rcases h.cached t u hcr with href | hold
    · exact href
    · exact hinv.cached t u hold hvalid
  · refine hinv.acyclic.mono ?_
    rintro t u (href | hcr)
    · rw [h.db_eq] at href
      exact Or.inl href
    · exact h.cached t u hcr

/-- The references that are read for a path are those of its row. -/
theorem refers_of_internal {db : Db} {path : StorePath} {info : ValidPathInfo}
    (hprinted : ∀ t, db.Valid t → ∃ p, t = store.printStorePath p)
    (h : queryPathInfoInternal store db path = .ok (some info)) {q : StorePath}
    (hq : q ∈ info.references) :
    db.Refers (store.printStorePath path) (store.printStorePath q) := by
  unfold queryPathInfoInternal at h
  cases hrow : db.queryPathInfo (store.printStorePath path) with
  | none =>
      rw [hrow] at h
      cases h
  | some row =>
      rw [hrow] at h
      obtain ⟨hmem, hpath⟩ := Db.queryPathInfo_eq_some.mp hrow
      simp only [NixStore.bind_eq_ok, pure_eq_ok, Except.ok.injEq, Option.some.injEq] at h
      obtain ⟨_, -, _, -, _, -, _, -, references, hread, rfl⟩ := h
      obtain ⟨t, ht, hparse⟩ := (readStorePaths_eq_ok.mp hread).2 q hq
      have href := (Db.mem_queryReferences hmem).mp ht
      obtain ⟨p, rfl⟩ := hprinted t href.valid.2
      obtain ⟨-, rfl⟩ := (parse_cString_print store.toStoreDir p q).mp hparse
      rw [← hpath]
      exact href

/-- `queryPathInfo` answers from what is known. -/
theorem queryPathInfo_queried {s : LocalStore} (hinv : GraphInv store s) (path : StorePath) :
    Spec (Queried store s) (queryPathInfo store path)
      (fun info s' => Queried store s s' ∧ ∀ q ∈ info.references,
        KnownRefers store s (store.printStorePath path) (store.printStorePath q))
      (fun _ s' => Queried store s s') := by
  refine Spec.seq (Q := fun found s' => Queried store s s' ∧ ∀ info, found = some (some info) →
    ∀ q ∈ info.references,
      KnownRefers store s (store.printStorePath path) (store.printStorePath q)) ?_ ?_
  · intro s₁ hs₁
    refine ⟨⟨hs₁.db_eq, ?_⟩, ?_⟩
    · rintro t u ⟨p, info, hfind, hrest⟩
      exact hs₁.cached t u ⟨p, info, (s₁.pathInfoCache.find_get path p).symm.trans hfind, hrest⟩
    · intro info hfound q hq
      refine hs₁.cached _ _ ⟨path, info, ?_, rfl, q, hq, rfl⟩
      exact (s₁.pathInfoCache.get_fst path).symm.trans hfound
  · intro found
    match found with
    | some none => exact Spec.raise fun _ h => h.1
    | some (some info) => exact Spec.ret fun _ h => ⟨h.1, h.2 info rfl⟩
    | none =>
        refine Spec.at_state fun s₁ hs₁ => ?_
        refine Spec.seq ((onDb_query _ s₁).weaken (fun _ h => h) (fun _ _ h => h) ?_) fun info => ?_
        · rintro _ _ ⟨-, rfl⟩
          exact hs₁.1
        have hrefers : ∀ i, queryPathInfoInternal store s₁.db path = .ok (some i) →
            ∀ q ∈ i.references,
              KnownRefers store s (store.printStorePath path) (store.printStorePath q) := by
          intro i hread q hq
          rw [hs₁.1.db_eq] at hread
          exact Or.inl (refers_of_internal hinv.printed hread hq)
        refine Spec.seq (Q := fun _ s' => Queried store s s' ∧ ∀ i, info = some i →
          ∀ q ∈ i.references,
            KnownRefers store s (store.printStorePath path) (store.printStorePath q)) ?_ ?_
        · rintro _ ⟨hread, rfl⟩
          refine ⟨⟨hs₁.1.db_eq, ?_⟩, fun i hi => hrefers i (hi ▸ hread)⟩
          rintro t u ⟨p, i, hfind, rfl, q, hq, rfl⟩
          by_cases hp : p = path
          · subst hp
            have hi : some i = info := LruCache.find_upsert_self_eq hfind
            exact hrefers i (hi ▸ hread) q hq
          · exact hs₁.1.cached _ _ ⟨p, i, LruCache.find_of_find_upsert hp hfind, rfl, q, hq, rfl⟩
        · intro _
          cases info with
          | none => exact Spec.raise fun _ h => h.1
          | some i =>
              refine Spec.cond (fun _ => Spec.ret fun _ h => ⟨h.1, h.2 i rfl⟩) fun _ => ?_
              exact Spec.raise fun _ h => h.1

theorem isValidPath_queried (s : LocalStore) (path : StorePath) :
    Run s (isValidPath store path) (fun _ s' => Queried store s s')
      (fun _ s' => Queried store s s') := by
  refine Spec.seq (Q := fun _ s' => Queried store s s') ?_ fun found => ?_
  · rintro _ rfl
    rename_i s
    refine ⟨rfl, ?_⟩
    rintro t u ⟨p, info, hfind, hrest⟩
    exact Or.inr ⟨p, info, (s.pathInfoCache.find_get path p).symm.trans hfind, hrest⟩
  · cases found with
    | some value => exact Spec.ret fun _ h => h
    | none => exact fun _ h => h

theorem orInvalid_spec {α : Type} {x : StoreM α} {default : α} {P : LocalStore → Prop}
    {Q : α → LocalStore → Prop} {E : Error → LocalStore → Prop} (h : Spec P x Q E)
    (hdefault : ∀ e s, E e s → Q default s) : Spec P (orInvalid x default) Q E := by
  intro s hs
  have hrun := h s hs
  unfold orInvalid
  cases hx : x s with
  | ok a s' =>
      rw [hx] at hrun
      exact hrun
  | error e s' =>
      rw [hx] at hrun
      cases e with
      | invalidPath msg => exact hdefault _ s' hrun
      | _ => exact hrun

/-- The children of a path in `topoSortPaths` are known references. -/
theorem pathReferences_queried {s : LocalStore} (hinv : GraphInv store s) (path : StorePath) :
    Spec (Queried store s) (pathReferences store path)
      (fun l s' => Queried store s s' ∧ ∀ q ∈ l,
        KnownRefers store s (store.printStorePath path) (store.printStorePath q))
      (fun _ s' => Queried store s s') := by
  have hquery := Spec.seq (queryPathInfo_queried hinv path) fun info =>
    Spec.ret (ε := Error) (a := inOrder info.references) (Q := fun l s' => Queried store s s' ∧
      ∀ q ∈ l, KnownRefers store s (store.printStorePath path) (store.printStorePath q))
      fun _ h => ⟨h.1, fun q hq => h.2 q (mem_inOrder.mp hq)⟩
  exact orInvalid_spec hquery fun _ _ h => ⟨h, fun q hq => absurd hq List.not_mem_nil⟩

-- ============================================================================
-- Whole runs
-- ============================================================================

theorem graphInv_call {s : LocalStore} (hinv : GraphInv store s) (c : Call)
    (hsafe : c.ClosesNoCycle store s) : GraphInv store (c.run store s) := by
  cases c with
  | registerValidPaths now infos =>
      refine Spec.final_of ((registerValidPaths_outcome infos s).weaken (fun _ h => h) ?_ ?_)
      · rintro _ s' ⟨hacc, hcache, hdb⟩
        exact graphInv_committed hinv hsafe hacc hcache hdb
      · rintro _ s' ⟨hacc, hcache, hdb⟩
        exact graphInv_refused hinv hsafe hacc hcache hdb
  | invalidatePathChecked path =>
      refine Spec.final_of ((invalidatePathChecked_outcome path s).weaken (fun _ h => h) ?_ ?_)
      · rintro _ s' (⟨-, rfl⟩ | ⟨hdb, hcache⟩)
        · exact hinv
        · exact graphInv_invalidated hinv hdb hcache
      · rintro _ s' rfl
        exact hinv
  | queryPathInfo path =>
      refine Spec.final_of ((queryPathInfo_queried hinv path).weaken ?_ ?_ ?_)
      · rintro _ rfl
        exact Queried.refl _
      · exact fun _ _ h => h.1.graphInv hinv
      · exact fun _ _ h => h.graphInv hinv
  | isValidPath path =>
      exact Spec.final_of ((isValidPath_queried s path).weaken (fun _ h => h)
        (fun _ _ h => h.graphInv hinv) fun _ _ h => h.graphInv hinv)

theorem Reaches.graphInv {s : LocalStore} (h : Reaches store s) : GraphInv store s := by
  induction h with
  | fresh n => exact graphInv_fresh n
  | call c _ hsafe ih => exact graphInv_call ih c hsafe

/-- If nothing known is cyclic, no sort finds a cycle. -/
theorem GraphInv.no_cycle {s : LocalStore} (hinv : GraphInv store s) (paths : Finset StorePath) :
    ¬ ReportsCycle store s paths := by
  rintro ⟨c, s', hrun⟩
  have hchildren : ∀ p ∈ paths, Spec (Queried store s) (pathReferences store p)
      (fun l s' => Queried store s s' ∧ (∀ q ∈ l,
        KnownRefers store s (store.printStorePath p) (store.printStorePath q)) ∧
        ∀ q, False → q ∈ l)
      (fun _ s' => Queried store s s') := fun p _ =>
    (pathReferences_queried hinv p).weaken (fun _ h => h)
      (fun _ _ h => ⟨h.1, h.2, fun _ hfalse => hfalse.elim⟩) fun _ _ h => h
  obtain ⟨-, hcycle⟩ := (TopoSort.topoSort_spec _ _ hchildren).of_ok (Queried.refl s) hrun
  refine Acyclic.comap (printStorePath_injective store) ?_ hinv.acyclic c.path hcycle
  exact fun p q h => h.1

/-- In every run whose calls meet the condition, the references in the
    database have no cycle and no sort reports one. -/
theorem reaches_acyclic (s : LocalStore) (h : Reaches store s) :
    Acyclic s.db.Refers ∧ ∀ paths, ¬ ReportsCycle store s paths :=
  ⟨h.graphInv.acyclic.mono fun _ _ href => Or.inl href, h.graphInv.no_cycle⟩

namespace Sample

/-- Two paths that refer to each other. -/
def eachOther : ValidPathInfos where
  infos := [info pathA {pathB}, info pathB {pathA}]
  ascending := by decide +kernel

end Sample

/-- The store after one registration. -/
theorem reaches_acyclic_first :
    Reaches Sample.store (Call.run Sample.store (fresh 10) (.registerValidPaths 1 Sample.first)) ∧
      Acyclic (Call.run Sample.store (fresh 10) (.registerValidPaths 1 Sample.first)).db.Refers := by
  have hreach : Reaches Sample.store
      (Call.run Sample.store (fresh 10) (.registerValidPaths 1 Sample.first)) := by
    refine Reaches.call _ (Reaches.fresh 10) ⟨?_, ?_⟩
    · rintro - i hi q hq
      cases List.mem_singleton.mp hi
      exact absurd hq (Finset.notMem_empty q)
    · rintro -
      -- neither the empty store nor the info has a reference
      refine Acyclic.of_rank (fun _ => 0) ?_
      rintro t u ((⟨r, hr, -⟩ | ⟨p, i, hfind, -⟩) | ⟨i, hi, -, q, hq, -⟩)
      · exact absurd hr List.not_mem_nil
      · cases hfind
      · cases List.mem_singleton.mp (mem_entered hi).1
        exact absurd hq (Finset.notMem_empty q)
  exact ⟨hreach, (reaches_acyclic _ hreach).1⟩

/-- Two paths that refer to each other, registered by one call: it returns, and
    the database has a cycle. -/
theorem registerValidPaths_closes_cycle :
    Effect.returns (LocalStore.registerValidPaths Sample.store 1 Sample.eachOther (fresh 10)) = true ∧
      ¬ Acyclic (Call.run Sample.store (fresh 10)
        (.registerValidPaths 1 Sample.eachOther)).db.Refers := by
  refine ⟨by decide +kernel, fun h => ?_⟩
  apply h (Sample.store.printStorePath Sample.pathA)
  refine TransGen.tail (b := Sample.store.printStorePath Sample.pathB) (TransGen.single ?_) ?_
  · exact ⟨by decide +kernel, by decide +kernel⟩
  · exact ⟨by decide +kernel, by decide +kernel⟩

end LocalStore
end NixStore
