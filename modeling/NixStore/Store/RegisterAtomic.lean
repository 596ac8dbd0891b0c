/-
  NixStore.Store.RegisterAtomic

  What a failed `registerValidPaths` leaves behind.  The transaction puts the
  database back, but `addValidPath` has already written to the path-info cache,
  and nobody takes that back: a path that was never registered is answered as
  valid from then on.  `registerValidPaths_unchanged_iff` says exactly when
  nothing can be seen of the failed call.
-/

import NixStore.Store.Register

namespace NixStore
namespace LocalStore

open Effect OrderedSet Wire

variable (store : StoreDirConfig)

/-! ## Answers -/

/-- What the store knows about a path: the cached value, or else what the
    database has. -/
def known (s : LocalStore) (p : StorePath) : Except Error (Option ValidPathInfo) :=
  match s.pathInfoCache.find p with
  | some v => .ok v
  | none => queryPathInfoInternal store s.db p

/-- The failed call cannot be seen: rows, references and answers are as before. -/
structure Unchanged (s s' : LocalStore) : Prop where
  db_eq : s'.db = s.db
  isValidPath_eq : ∀ p, result (isValidPath store p) s' = result (isValidPath store p) s
  queryPathInfo_eq : ∀ p, result (queryPathInfo store p) s' = result (queryPathInfo store p) s

variable {store}

theorem goodStorePath_self (p : StorePath) : goodStorePath p p = true := by
  simp [goodStorePath]

/-- An info read from the database is one of the path asked for. -/
theorem queryPathInfoInternal_path {db : Db} {p : StorePath} {info : ValidPathInfo}
    (h : queryPathInfoInternal store db p = .ok (some info)) : info.path = p := by
  unfold queryPathInfoInternal at h
  cases hrow : db.queryPathInfo (store.printStorePath p) with
  | none =>
      rw [hrow] at h
      cases h
  | some row =>
      rw [hrow] at h
      simp only [NixStore.bind_eq_ok, pure_eq_ok, Except.ok.injEq, Option.some.injEq] at h
      obtain ⟨_, -, _, -, _, -, _, -, _, -, rfl⟩ := h
      rfl

theorem queryPathInfoInternal_eq_none {db : Db} {p : StorePath} :
    queryPathInfoInternal store db p = .ok none ↔ ¬ db.Valid (store.printStorePath p) := by
  rw [← Db.queryPathInfo_eq_none]
  unfold queryPathInfoInternal
  cases hrow : db.queryPathInfo (store.printStorePath p) with
  | none => simp
  | some row =>
      simp only [NixStore.bind_eq_ok, pure_eq_ok, Except.ok.injEq, reduceCtorEq, and_false,
        exists_false]

/-- Whether a path counts as valid: a row that cannot be read is a row. -/
def saysValid : Except Error (Option ValidPathInfo) → Bool
  | .ok v => v.isSome
  | .error _ => true

theorem saysValid_internal (db : Db) (p : StorePath) :
    saysValid (queryPathInfoInternal store db p)
      = (db.queryPathInfo (store.printStorePath p)).isSome := by
  by_cases hvalid : db.Valid (store.printStorePath p)
  · rw [Db.isSome_queryPathInfo.mpr hvalid]
    rcases hread : queryPathInfoInternal store db p with e | _ | info
    · rfl
    · exact absurd hvalid (queryPathInfoInternal_eq_none.mp hread)
    · rfl
  · rw [queryPathInfoInternal_eq_none.mpr hvalid, Db.queryPathInfo_eq_none.mpr hvalid]
    rfl

theorem result_isValidPath (s : LocalStore) (p : StorePath) :
    result (isValidPath store p) s = .ok (saysValid (known store s p)) := by
  unfold result isValidPath known
  rw [bind_run, cacheGet, LruCache.get_fst]
  cases s.pathInfoCache.find p with
  | none =>
      rw [saysValid_internal]
      rfl
  | some v => rfl

variable (store) in
/-- The answer of `queryPathInfo` from what is known. -/
def infoOrThrow (p : StorePath) : Option ValidPathInfo → Except Error ValidPathInfo
  | none => .error (invalidPath store p)
  | some info => .ok info

theorem result_queryPathInfo (s : LocalStore) (p : StorePath) :
    result (queryPathInfo store p) s = (known store s p).bind (infoOrThrow store p) := by
  unfold result queryPathInfo known
  rw [bind_run, cacheGet, LruCache.get_fst]
  rcases hfind : s.pathInfoCache.find p with _ | _ | info
  · -- a miss goes to the database, and the answer into the cache
    simp only
    rw [bind_run, onDb]
    cases hdb : queryPathInfoInternal store s.db p with
    | error e => rfl
    | ok info =>
        simp only [Except.map]
        rw [bind_run, cacheUpsert]
        cases info with
        | none => rfl
        | some info =>
            simp only [answer, queryPathInfoInternal_path hdb, goodStorePath_self, if_true]
            rfl
  · rfl
  · rfl

/-- Two states give the same answers about a path exactly if they know the same
    about it. -/
theorem same_answers_iff (s s' : LocalStore) (p : StorePath) :
    (result (isValidPath store p) s' = result (isValidPath store p) s ∧
      result (queryPathInfo store p) s' = result (queryPathInfo store p) s) ↔
      known store s' p = known store s p := by
  rw [result_isValidPath, result_isValidPath, result_queryPathInfo, result_queryPathInfo]
  refine ⟨?_, fun h => by rw [h]; exact ⟨rfl, rfl⟩⟩
  generalize known store s' p = x
  generalize known store s p = y
  rcases x with e | _ | info <;> rcases y with e' | _ | info' <;>
    simp [saysValid, infoOrThrow, Except.bind]

/-! ## The condition -/

variable (store) in
/-- What the infos entered by the call are in the cache. -/
def newEntries (db : Db) (infos : ValidPathInfos) : List (StorePath × Option ValidPathInfo) :=
  (entered store db infos.infos).map fun i => (i.path, some i)

variable (store) in
/-- Nothing of a failed call can be seen: what it has entered in the cache was
    there already or has been displaced again, and what it has displaced is
    what the database has. -/
structure LeavesNoTrace (s : LocalStore) (infos : ValidPathInfos) : Prop where
  entered_cached : ∀ i ∈ entered store s.db infos.infos,
    ¬ s.pathInfoCache.Displaced (newEntries store s.db infos) i.path →
    s.pathInfoCache.find i.path = some (some i)
  displaced_read : ∀ p v, s.pathInfoCache.find p = some v →
    s.pathInfoCache.Displaced (newEntries store s.db infos) p →
    queryPathInfoInternal store s.db p = .ok v

theorem mem_entered {db : Db} {infos : List ValidPathInfo} {i : ValidPathInfo}
    (h : i ∈ entered store db infos) :
    i ∈ infos ∧ passes store db i = true ∧ ¬ db.Valid (store.printStorePath i.path) := by
  obtain ⟨hmem, hnew⟩ := List.mem_filter.mp h
  exact ⟨(List.takeWhile_sublist _).mem hmem, List.mem_takeWhile_imp hmem, by simpa using hnew⟩

variable (store) in
theorem nodup_newEntries (db : Db) (infos : ValidPathInfos) :
    ((newEntries store db infos).map Prod.fst).Nodup := by
  rw [newEntries, List.map_map]
  exact infos.nodup.sublist
    ((List.filter_sublist.trans (List.takeWhile_sublist _)).map ValidPathInfo.path)

/-- Without new infos the call does not touch the cache. -/
theorem leavesNoTrace_of_entered_nil {s : LocalStore} {infos : ValidPathInfos}
    (h : entered store s.db infos.infos = []) : LeavesNoTrace store s infos where
  entered_cached := by
    intro i hi
    rw [h] at hi
    exact absurd hi List.not_mem_nil
  displaced_read := by
    intro p v hfind hdisplaced
    have hkept := s.pathInfoCache.find_upsertAll_of_not_mem (k := p) (nodup_newEntries store s.db infos)
      (by rw [newEntries, h]; exact List.not_mem_nil)
    rw [if_pos hdisplaced, newEntries, h] at hkept
    exact absurd (hkept.symm.trans hfind) (by simp)

/-- A failed call leaves no trace in a store whose cache says what the database
    says only if it has entered nothing, or nothing can be cached. -/
theorem LeavesNoTrace.entered_nil {s : LocalStore} {infos : ValidPathInfos}
    (h : LeavesNoTrace store s infos)
    (hcoherent : ∀ p v, s.pathInfoCache.find p = some v →
      queryPathInfoInternal store s.db p = .ok v) (hcap : s.pathInfoCache.capacity ≠ 0) :
    entered store s.db infos.infos = [] := by
  by_contra hne
  -- the info entered last is not displaced
  obtain ⟨front, i, hlast⟩ := List.eq_nil_or_concat' _ |>.resolve_left hne
  have hi : i ∈ entered store s.db infos.infos := by
    rw [hlast]
    exact List.mem_append_right _ (List.mem_singleton.mpr rfl)
  have hmem : (i.path, some i) ∈ newEntries store s.db infos :=
    List.mem_map_of_mem (f := fun i => (i.path, some i)) hi
  have hfind := s.pathInfoCache.find_upsertAll_of_mem (nodup_newEntries store s.db infos) hmem
  have hkept : ¬ s.pathInfoCache.Displaced (newEntries store s.db infos) i.path := by
    intro hdisplaced
    rw [if_pos hdisplaced, newEntries, hlast, List.map_append, LruCache.upsertAll_append] at hfind
    have hfound := LruCache.find_upsert_self
      (s.pathInfoCache.upsertAll (front.map fun i => (i.path, some i))) i.path (some i)
      (by rw [LruCache.capacity_upsertAll]; exact hcap)
    exact absurd (hfound.symm.trans hfind) (by simp)
  have hread := hcoherent _ _ (h.entered_cached i hi hkept)
  rw [queryPathInfoInternal_eq_none.mpr (mem_entered hi).2.2] at hread
  cases hread

/-- A failed call puts the database back.  Its answers are those from before
    exactly if it leaves no trace in the cache. -/
theorem registerValidPaths_unchanged_iff (now : Int) (infos : ValidPathInfos)
    (s s' : LocalStore) (e : Error) (h : registerValidPaths store now infos s = .error e s') :
    Unchanged store s s' ↔ LeavesNoTrace store s infos := by
  obtain ⟨-, hcache, hdb⟩ := (registerValidPaths_outcome infos s).of_error rfl h
  have hnodup := nodup_newEntries store s.db infos
  -- the database is rolled back, so what is known differs by the cache alone
  have hknown : Unchanged store s s' ↔ ∀ p, known store s' p = known store s p := by
    constructor
    · intro hun p
      exact (same_answers_iff s s' p).mp ⟨hun.isValidPath_eq p, hun.queryPathInfo_eq p⟩
    · intro hall
      exact ⟨hdb, fun p => ((same_answers_iff s s' p).mpr (hall p)).1,
        fun p => ((same_answers_iff s s' p).mpr (hall p)).2⟩
  have hcached : s'.pathInfoCache = s.pathInfoCache.upsertAll (newEntries store s.db infos) := hcache
  rw [hknown]
  unfold known
  rw [hdb, hcached]
  constructor
  · intro hall
    refine ⟨?_, ?_⟩
    -- an info that was entered has been there, since its path is not valid
    · intro i hi hkept
      have hmem : (i.path, some i) ∈ newEntries store s.db infos :=
        List.mem_map_of_mem (f := fun i => (i.path, some i)) hi
      have heq := hall i.path
      rw [LruCache.find_upsertAll_of_mem _ hnodup hmem, if_neg hkept] at heq
      cases hfind : s.pathInfoCache.find i.path with
      | none =>
          rw [hfind, queryPathInfoInternal_eq_none.mpr (mem_entered hi).2.2] at heq
          cases heq
      | some v =>
          rw [hfind] at heq
          cases heq
          rfl
    · intro p v hfind hdisplaced
      have heq := hall p
      rw [LruCache.find_upsertAll_of_displaced _ hnodup hdisplaced, hfind] at heq
      exact heq
  · intro htrace p
    -- displaced, entered or untouched
    by_cases hdisplaced : s.pathInfoCache.Displaced (newEntries store s.db infos) p
    · rw [LruCache.find_upsertAll_of_displaced _ hnodup hdisplaced]
      cases hfind : s.pathInfoCache.find p with
      | none => rfl
      | some v => exact htrace.displaced_read p v hfind hdisplaced
    · by_cases hp : p ∈ (newEntries store s.db infos).map Prod.fst
      · obtain ⟨_, hmem, rfl⟩ := List.mem_map.mp hp
        obtain ⟨i, hi, rfl⟩ := List.mem_map.mp hmem
        rw [LruCache.find_upsertAll_of_mem _ hnodup hmem, if_neg hdisplaced,
          htrace.entered_cached i hi hdisplaced]
      · rw [LruCache.find_upsertAll_of_not_mem _ hnodup hp, if_neg hdisplaced]

/-- A path with a reference that is not valid: the call fails and can be
    seen. -/
theorem registerValidPaths_unchanged_sample :
    ∃ e s', registerValidPaths Sample.store 1 Sample.dangling (fresh 10) = .error e s' ∧
      (Unchanged Sample.store (fresh 10) s' ↔
        LeavesNoTrace Sample.store (fresh 10) Sample.dangling) := by
  obtain ⟨e, s', hrun, -⟩ := Sample.dangling_fails
  exact ⟨e, s', hrun, registerValidPaths_unchanged_iff 1 Sample.dangling (fresh 10) s' e hrun⟩

/-- After the failed call the path counts as valid. -/
theorem registerValidPaths_seen_after_failure :
    ∃ e s', registerValidPaths Sample.store 1 Sample.dangling (fresh 10) = .error e s' ∧
      ¬ Unchanged Sample.store (fresh 10) s' := by
  obtain ⟨e, s', hrun, hcached⟩ := Sample.dangling_fails
  refine ⟨e, s', hrun, fun hun => ?_⟩
  have hsame := hun.isValidPath_eq Sample.pathA
  rw [result_isValidPath, result_isValidPath, known, hcached] at hsame
  have hbefore : known Sample.store (fresh 10) Sample.pathA = .ok none := rfl
  rw [hbefore] at hsame
  cases hsame

end LocalStore
end NixStore
