/-
  NixStore.Store.Register

  What `registerValidPaths` does, as one statement about its outcome
  (`registerValidPaths_outcome`): when it returns and what is then in the
  database, and what a call that throws leaves behind in the cache.

  The two loops are described one after the other, each by a lemma about its
  body and an induction over the infos.
-/

import NixStore.Store.LocalStore

namespace NixStore
namespace LocalStore

open Effect OrderedSet Wire Relation

variable (store : StoreDirConfig)

/-! ## Vocabulary -/

/-- The first loop gets past this info. -/
def passes (db : Db) (info : ValidPathInfo) : Bool :=
  decide (info.narHash.algo = .sha256) &&
    (decide (db.Valid (store.printStorePath info.path)) ||
      (checkContentAddressed store info).isOk)

/-- The infos that the first loop enters as new, in the order it does so: those
    that are not valid yet, up to the first that does not pass. -/
def entered (db : Db) (infos : List ValidPathInfo) : List ValidPathInfo :=
  (infos.takeWhile (passes store db)).filter fun i => ¬ db.Valid (store.printStorePath i.path)

/-- The cache after infos have been entered. -/
def cacheAfter (cache : LruCache StorePath (Option ValidPathInfo)) (infos : List ValidPathInfo) :
    LruCache StorePath (Option ValidPathInfo) :=
  cache.upsertAll (infos.map fun i => (i.path, some i))

/-- The row of a path after its info has been updated. -/
def updatedRow (info : ValidPathInfo) (row : ValidPathRow) : ValidPathRow :=
  { row with
    narSize := narSizeColumn info, hash := hashColumn info, ultimate := ultimateColumn info
    sigs := sigsColumn info, ca := caColumn info }

/-- The database after the first loop. -/
structure Registered (now : Int) (db : Db) (infos : List ValidPathInfo) (db' : Db) : Prop where
  other : ∀ t, (∀ i ∈ infos, store.printStorePath i.path ≠ t) →
    db'.queryPathInfo t = db.queryPathInfo t
  updated : ∀ i ∈ infos, ∀ row, db.queryPathInfo (store.printStorePath i.path) = some row →
    db'.queryPathInfo (store.printStorePath i.path) = some (updatedRow i row)
  added : ∀ i ∈ infos, ¬ db.Valid (store.printStorePath i.path) →
    ∃ id, db'.queryPathInfo (store.printStorePath i.path)
      = some { columns store now i with id }
  refers : ∀ t u, db'.Refers t u ↔ db.Refers t u

variable {store} {now : Int}

theorem Registered.valid {db db' : Db} {infos : List ValidPathInfo}
    (h : Registered store now db infos db') (t : Bytes) :
    db'.Valid t ↔ db.Valid t ∨ ∃ i ∈ infos, store.printStorePath i.path = t := by
  by_cases hin : ∃ i ∈ infos, store.printStorePath i.path = t
  · refine ⟨fun _ => Or.inr hin, fun _ => ?_⟩
    obtain ⟨i, hi, rfl⟩ := hin
    by_cases hvalid : db.Valid (store.printStorePath i.path)
    · obtain ⟨row, hrow⟩ := hvalid.query
      exact Db.valid_of_query (h.updated i hi row hrow)
    · obtain ⟨id, hid⟩ := h.added i hi hvalid
      exact Db.valid_of_query hid
  · have hother := h.other t fun i hi heq => hin ⟨i, hi, heq⟩
    rw [← Db.isSome_queryPathInfo, hother, Db.isSome_queryPathInfo]
    exact ⟨Or.inl, fun hor => hor.resolve_right hin⟩

theorem Registered.nil (db : Db) : Registered store now db [] db where
  other := fun _ _ => rfl
  updated := fun _ hi => absurd hi List.not_mem_nil
  added := fun _ hi => absurd hi List.not_mem_nil
  refers := fun _ _ => Iff.rfl

/-- One info, then others under different paths. -/
theorem Registered.cons {db db₁ db₂ : Db} {i : ValidPathInfo} {rest : List ValidPathInfo}
    (h₁ : Registered store now db [i] db₁) (h₂ : Registered store now db₁ rest db₂)
    (hne : ∀ j ∈ rest, store.printStorePath j.path ≠ store.printStorePath i.path) :
    Registered store now db (i :: rest) db₂ := by
  have hkeep : db₂.queryPathInfo (store.printStorePath i.path)
      = db₁.queryPathInfo (store.printStorePath i.path) := h₂.other _ hne
  have hsame : ∀ j ∈ rest, db₁.queryPathInfo (store.printStorePath j.path)
      = db.queryPathInfo (store.printStorePath j.path) := by
    intro j hj
    refine h₁.other _ fun k hk => ?_
    rw [List.mem_singleton.mp hk]
    exact (hne j hj).symm
  refine ⟨?_, ?_, ?_, fun t u => (h₂.refers t u).trans (h₁.refers t u)⟩
  · intro t ht
    rw [h₂.other t fun j hj => ht j (List.mem_cons_of_mem _ hj)]
    refine h₁.other t fun j hj => ?_
    rw [List.mem_singleton.mp hj]
    exact ht i List.mem_cons_self
  · intro j hj row hrow
    rcases List.mem_cons.mp hj with rfl | hj
    · rw [hkeep]
      exact h₁.updated j (List.mem_singleton.mpr rfl) row hrow
    · exact h₂.updated j hj row ((hsame j hj).trans hrow)
  · intro j hj hnew
    rcases List.mem_cons.mp hj with rfl | hj
    · rw [hkeep]
      exact h₁.added j (List.mem_singleton.mpr rfl) hnew
    · refine h₂.added j hj ?_
      rwa [← Db.queryPathInfo_eq_none, hsame j hj, Db.queryPathInfo_eq_none]

/-! ## The first loop -/

theorem isValidPath_of_valid {s : LocalStore} {p : StorePath}
    (h : s.db.Valid (store.printStorePath p)) : isValidPath_ store p s = .ok true s := by
  rw [isValidPath_, Db.isSome_queryPathInfo.mpr h]

theorem isValidPath_of_not_valid {s : LocalStore} {p : StorePath}
    (h : ¬ s.db.Valid (store.printStorePath p)) : isValidPath_ store p s = .ok false s := by
  rw [isValidPath_, Db.queryPathInfo_eq_none.mpr h]
  rfl

theorem registerInfo_of_not_passes (now : Int) {s : LocalStore} {i : ValidPathInfo}
    (h : passes store s.db i = false) : ∃ e, registerInfo store now i s = .error e s := by
  unfold registerInfo
  by_cases hsha : i.narHash.algo = .sha256
  · have hnew : ¬ s.db.Valid (store.printStorePath i.path) := by
      intro hvalid
      simp [passes, hsha, hvalid] at h
    have hca : ∃ e, checkContentAddressed store i = .error e := by
      cases hcheck : checkContentAddressed store i with
      | error e => exact ⟨e, rfl⟩
      | ok u => simp [passes, hsha, hcheck, Except.isOk, Except.toBool] at h
    obtain ⟨e, he⟩ := hca
    refine ⟨e, ?_⟩
    rw [throwIf, if_neg (by simpa using hsha), bind_of_ok (fromExcept_ok () s),
      bind_of_ok (isValidPath_of_not_valid hnew)]
    show (addValidPath store now i >>= _) s = _
    rw [addValidPath, he, bind_of_error (bind_of_error (fromExcept_error e s))]
  · refine ⟨.assertion "i.narHash.algo == HashAlgorithm::SHA256", ?_⟩
    rw [throwIf, if_pos hsha]
    exact bind_of_error (fromExcept_error _ s)

/-- An info of a valid path is updated. -/
theorem registerInfo_of_valid (now : Int) {s : LocalStore} {i : ValidPathInfo}
    (h : passes store s.db i = true) (hvalid : s.db.Valid (store.printStorePath i.path)) :
    ∃ db', registerInfo store now i s = .ok () { s with db := db' } ∧
      Registered store now s.db [i] db' := by
  have hsha : i.narHash.algo = .sha256 := by
    simp only [passes, Bool.and_eq_true, decide_eq_true_eq] at h
    exact h.1
  refine ⟨s.db.updatePathInfo (store.printStorePath i.path) (narSizeColumn i) (hashColumn i)
    (ultimateColumn i) (sigsColumn i) (caColumn i), ?_, ?_⟩
  · unfold registerInfo
    rw [throwIf, if_neg (by simpa using hsha), bind_of_ok (fromExcept_ok () s),
      bind_of_ok (isValidPath_of_valid hvalid)]
    rfl
  · refine ⟨?_, ?_, ?_, fun t u => Db.refers_update ..⟩
    · intro t ht
      have hne := ht i (List.mem_singleton.mpr rfl)
      rw [Db.queryPathInfo_update]
      cases hquery : s.db.queryPathInfo t with
      | none => rfl
      | some row =>
          have hpath := (Db.queryPathInfo_eq_some.mp hquery).2
          rw [Option.map_some, Db.updateRow, if_neg fun heq => hne (heq.symm.trans hpath)]
    · intro j hj row hrow
      rw [List.mem_singleton.mp hj] at hrow ⊢
      have hpath := (Db.queryPathInfo_eq_some.mp hrow).2
      rw [Db.queryPathInfo_update, hrow, Option.map_some, Db.updateRow, if_pos hpath]
      rfl
    · intro j hj hnew
      rw [List.mem_singleton.mp hj] at hnew
      exact absurd hvalid hnew

/-- An info of another path is entered in the database and in the cache. -/
theorem registerInfo_of_new (now : Int) {s : LocalStore} {i : ValidPathInfo}
    (h : passes store s.db i = true) (hnew : ¬ s.db.Valid (store.printStorePath i.path)) :
    ∃ db', registerInfo store now i s
        = .ok () { db := db', pathInfoCache := s.pathInfoCache.upsert i.path (some i) } ∧
      Registered store now s.db [i] db' := by
  simp only [passes, Bool.and_eq_true, decide_eq_true_eq, Bool.or_eq_true, hnew, false_or] at h
  obtain ⟨hsha, hok⟩ := h
  have hcheck : checkContentAddressed store i = .ok () := by
    cases hres : checkContentAddressed store i with
    | ok u => rfl
    | error e => simp [hres, Except.isOk, Except.toBool] at hok
  obtain ⟨db', hdb'⟩ := Db.registerValidPath_of_not_valid (columns store now i) hnew
  refine ⟨db', ?_, ?_⟩
  · unfold registerInfo
    rw [throwIf, if_neg (by simpa using hsha), bind_of_ok (fromExcept_ok () s),
      bind_of_ok (isValidPath_of_not_valid hnew)]
    show (addValidPath store now i >>= _) s = _
    rw [addValidPath, hcheck, bind_run, bind_of_ok (fromExcept_ok () s), bind_run]
    simp only [onDb, hdb']
    rfl
  · have hquery := Db.queryPathInfo_register hdb'
    have hpath : (columns store now i).path = store.printStorePath i.path := rfl
    refine ⟨?_, ?_, ?_, Db.refers_register hdb'⟩
    · intro t ht
      rw [hquery, hpath, if_neg (ht i (List.mem_singleton.mpr rfl)).symm]
    · intro j hj row hrow
      rw [List.mem_singleton.mp hj] at hrow
      exact absurd (Db.valid_of_query hrow) hnew
    · intro j hj _
      rw [List.mem_singleton.mp hj]
      exact ⟨s.db.lastId + 1, by rw [hquery, hpath, if_pos rfl]⟩

/-- Whether an info passes depends on the database only through its own path. -/
theorem passes_congr {db db' : Db} {i : ValidPathInfo}
    (h : db'.queryPathInfo (store.printStorePath i.path)
      = db.queryPathInfo (store.printStorePath i.path)) :
    (db'.Valid (store.printStorePath i.path) ↔ db.Valid (store.printStorePath i.path)) ∧
      passes store db' i = passes store db i := by
  have hvalid : db'.Valid (store.printStorePath i.path) ↔ db.Valid (store.printStorePath i.path) := by
    rw [← Db.isSome_queryPathInfo, h, Db.isSome_queryPathInfo]
  refine ⟨hvalid, ?_⟩
  unfold passes
  rw [decide_eq_decide.mpr hvalid]

theorem entered_congr {db db' : Db} {infos : List ValidPathInfo}
    (h : ∀ i ∈ infos, db'.queryPathInfo (store.printStorePath i.path)
      = db.queryPathInfo (store.printStorePath i.path)) :
    entered store db' infos = entered store db infos := by
  unfold entered
  have htake : infos.takeWhile (passes store db') = infos.takeWhile (passes store db) := by
    induction infos with
    | nil => rfl
    | cons i rest ih =>
        rw [List.takeWhile_cons, List.takeWhile_cons, (passes_congr (h i List.mem_cons_self)).2,
          ih fun j hj => h j (List.mem_cons_of_mem _ hj)]
  rw [htake]
  apply List.filter_congr
  intro i hi
  rw [decide_eq_decide, (passes_congr (h i ((List.takeWhile_sublist _).mem hi))).1]

theorem entered_cons_of_not_passes {db : Db} {i : ValidPathInfo} {rest : List ValidPathInfo}
    (h : passes store db i = false) : entered store db (i :: rest) = [] := by
  rw [entered, List.takeWhile_cons, h]
  rfl

theorem entered_cons_of_passes {db : Db} {i : ValidPathInfo} {rest : List ValidPathInfo}
    (h : passes store db i = true) : entered store db (i :: rest) =
      (if db.Valid (store.printStorePath i.path) then [] else [i]) ++ entered store db rest := by
  rw [entered, List.takeWhile_cons, h, entered]
  by_cases hvalid : db.Valid (store.printStorePath i.path)
  · simp [hvalid]
  · simp [hvalid]

/-- The first loop returns if all infos pass, and in any case it has entered
    in the cache what it has entered. -/
theorem registerInfos_outcome (infos : List ValidPathInfo)
    (hnodup : (infos.map ValidPathInfo.path).Nodup) (s : LocalStore) :
    Run s (infos.forM (registerInfo store now))
      (fun _ s' => (∀ i ∈ infos, passes store s.db i = true) ∧
        s'.pathInfoCache = cacheAfter s.pathInfoCache (entered store s.db infos) ∧
        Registered store now s.db infos s'.db)
      (fun _ s' => (∃ i ∈ infos, passes store s.db i = false) ∧
        s'.pathInfoCache = cacheAfter s.pathInfoCache (entered store s.db infos)) := by
  induction infos generalizing s with
  | nil =>
      refine Spec.ret ?_
      rintro _ rfl
      exact ⟨fun _ hi => absurd hi List.not_mem_nil, rfl, Registered.nil _⟩
  | cons i rest ih =>
      rw [List.map_cons, List.nodup_cons] at hnodup
      have hne : ∀ j ∈ rest, store.printStorePath j.path ≠ store.printStorePath i.path := by
        intro j hj heq
        rw [← store.printStorePath_inj heq] at hnodup
        exact hnodup.1 (List.mem_map_of_mem hj)
      cases hpass : passes store s.db i with
      | false =>
          refine Spec.seq (Q := fun _ _ => False) ?_ fun _ => fun _ h => h.elim
          rintro _ rfl
          obtain ⟨e, he⟩ := registerInfo_of_not_passes now hpass
          rw [he, entered_cons_of_not_passes hpass]
          exact ⟨⟨i, List.mem_cons_self, hpass⟩, rfl⟩
      | true =>
          -- the rest runs in a state in which only this path's row is different
          obtain ⟨s₁, hrun, hreg, hcache⟩ : ∃ s₁, registerInfo store now i s = .ok () s₁ ∧
              Registered store now s.db [i] s₁.db ∧
              s₁.pathInfoCache = cacheAfter s.pathInfoCache
                (if s.db.Valid (store.printStorePath i.path) then [] else [i]) := by
            by_cases hvalid : s.db.Valid (store.printStorePath i.path)
            · obtain ⟨db', hrun, hreg⟩ := registerInfo_of_valid now hpass hvalid
              rw [if_pos hvalid]
              exact ⟨_, hrun, hreg, rfl⟩
            · obtain ⟨db', hrun, hreg⟩ := registerInfo_of_new now hpass hvalid
              rw [if_neg hvalid]
              exact ⟨_, hrun, hreg, rfl⟩
          have hsame : ∀ j ∈ rest, s₁.db.queryPathInfo (store.printStorePath j.path)
              = s.db.queryPathInfo (store.printStorePath j.path) := by
            intro j hj
            refine hreg.other _ fun k hk => ?_
            rw [List.mem_singleton.mp hk]
            exact (hne j hj).symm
          have hcacheAfter : cacheAfter s₁.pathInfoCache (entered store s₁.db rest)
              = cacheAfter s.pathInfoCache (entered store s.db (i :: rest)) := by
            rw [entered_cons_of_passes hpass, entered_congr hsame, hcache, cacheAfter, cacheAfter,
              cacheAfter, List.map_append, LruCache.upsertAll_append]
          refine Spec.seq (Q := fun _ t => t = s₁) ?_ fun _ => (ih hnodup.2 s₁).weaken
            (fun _ h => h) ?_ ?_
          · rintro _ rfl
            rw [hrun]
          · rintro _ s' ⟨hall, hc, hr⟩
            refine ⟨?_, hc.trans hcacheAfter, hreg.cons hr hne⟩
            intro j hj
            rcases List.mem_cons.mp hj with rfl | hj
            · exact hpass
            · rw [← (passes_congr (hsame j hj)).2]
              exact hall j hj
          · rintro _ s' ⟨⟨j, hj, hfail⟩, hc⟩
            refine ⟨⟨j, List.mem_cons_of_mem _ hj, ?_⟩, hc.trans hcacheAfter⟩
            rw [← (passes_congr (hsame j hj)).2]
            exact hfail

/-! ## The second loop -/

/-- The database after references of a path have been added: only the
    references are different. -/
structure Referenced (db : Db) (new : Bytes → Bytes → Prop) (db' : Db) : Prop where
  query : ∀ t, db'.queryPathInfo t = db.queryPathInfo t
  refers : ∀ t u, db'.Refers t u ↔ db.Refers t u ∨ new t u

theorem Referenced.valid {db db' : Db} {new : Bytes → Bytes → Prop} (h : Referenced db new db')
    (t : Bytes) : db'.Valid t ↔ db.Valid t := by
  rw [← Db.isSome_queryPathInfo, h.query, Db.isSome_queryPathInfo]

theorem Referenced.trans {db db₁ db₂ : Db} {new new' : Bytes → Bytes → Prop}
    (h : Referenced db new db₁) (h' : Referenced db₁ new' db₂) :
    Referenced db (fun t u => new t u ∨ new' t u) db₂ where
  query := fun t => (h'.query t).trans (h.query t)
  refers := fun t u => by rw [h'.refers, h.refers, or_assoc]

theorem Referenced.congr {db db' : Db} {new new' : Bytes → Bytes → Prop}
    (h : Referenced db new db') (hnew : ∀ t u, new t u ↔ new' t u) : Referenced db new' db' where
  query := h.query
  refers := fun t u => by rw [h.refers, hnew]

/-- One reference, of a path that is there. -/
theorem addReference_outcome {s : LocalStore} {row : ValidPathRow} (hrow : row ∈ s.db.validPaths)
    (q : StorePath) :
    Run s (addReference store row.id q)
      (fun _ s' => s.db.Valid (store.printStorePath q) ∧ s'.pathInfoCache = s.pathInfoCache ∧
        Referenced s.db (fun t u => t = row.path ∧ u = store.printStorePath q) s'.db)
      (fun _ s' => ¬ s.db.Valid (store.printStorePath q) ∧
        s'.pathInfoCache = s.pathInfoCache) := by
  rintro _ rfl
  rename_i s
  cases hquery : s.db.queryPathInfo (store.printStorePath q) with
  | none =>
      have hid : ∃ e, queryValidPathId store q s = .error e s := by
        rw [queryValidPathId, hquery]
        exact ⟨_, rfl⟩
      obtain ⟨e, he⟩ := hid
      rw [addReference, bind_of_error he]
      exact ⟨Db.queryPathInfo_eq_none.mp hquery, rfl⟩
  | some row' =>
      obtain ⟨hrow', hpath⟩ := Db.queryPathInfo_eq_some.mp hquery
      have hid : queryValidPathId store q s = .ok row'.id s := by
        rw [queryValidPathId, hquery]
      obtain ⟨db', hdb', -⟩ := Db.addReference_rows hrow hrow'
      rw [addReference, bind_of_ok hid]
      simp only [onDb, hdb']
      refine ⟨Db.valid_of_query hquery, rfl, Db.queryPathInfo_addReference hrow hrow' hdb', ?_⟩
      intro t u
      rw [Db.refers_addReference hrow hrow' hdb', hpath]

/-- The references of one info. -/
theorem addReferences_outcome {s : LocalStore} {i : ValidPathInfo}
    (hvalid : s.db.Valid (store.printStorePath i.path)) :
    Run s (addReferences store i)
      (fun _ s' => (∀ q ∈ i.references, s.db.Valid (store.printStorePath q)) ∧
        s'.pathInfoCache = s.pathInfoCache ∧
        Referenced s.db (fun t u => t = store.printStorePath i.path ∧
          ∃ q ∈ i.references, u = store.printStorePath q) s'.db)
      (fun _ s' => (∃ q ∈ i.references, ¬ s.db.Valid (store.printStorePath q)) ∧
        s'.pathInfoCache = s.pathInfoCache) := by
  obtain ⟨row, hquery⟩ := hvalid.query
  obtain ⟨hrow, hpath⟩ := Db.queryPathInfo_eq_some.mp hquery
  have hid : queryValidPathId store i.path s = .ok row.id s := by
    rw [queryValidPathId, hquery]
  refine Spec.seq (Q := fun id t => id = row.id ∧ t = s) ?_ ?_
  · rintro _ rfl
    rw [hid]
    exact ⟨rfl, rfl⟩
  intro id
  -- the loop: the references entered so far are valid, and recorded
  refine Spec.weaken (Spec.loop (inOrder i.references)
    (I := fun front s' => id = row.id ∧ (∀ q ∈ front, s.db.Valid (store.printStorePath q)) ∧
      s'.pathInfoCache = s.pathInfoCache ∧
      Referenced s.db (fun t u => t = store.printStorePath i.path ∧
        ∃ q ∈ front, u = store.printStorePath q) s'.db) ?_) ?_ ?_ fun _ _ h => h
  · intro front q rest hl
    have hq : q ∈ i.references := mem_inOrder.mp (hl ▸ List.mem_append_right _ List.mem_cons_self)
    refine Spec.at_state ?_
    rintro s' ⟨rfl, hall, hcache, href⟩
    have hrow' : row ∈ s'.db.validPaths :=
      (Db.queryPathInfo_eq_some.mp ((href.query _).trans hquery)).1
    refine (addReference_outcome hrow' q).weaken (fun _ h => h) ?_ ?_
    · rintro _ s'' ⟨hvalid', hcache', href'⟩
      refine ⟨rfl, ?_, hcache'.trans hcache, (href.trans href').congr ?_⟩
      · intro q' hq'
        rcases List.mem_append.mp hq' with hq' | hq'
        · exact hall q' hq'
        · rw [List.mem_singleton.mp hq']
          exact (href.valid _).mp hvalid'
      · intro t u
        rw [hpath]
        constructor
        · rintro (⟨ht, q', hq', hu⟩ | ⟨ht, hu⟩)
          · exact ⟨ht, q', List.mem_append_left _ hq', hu⟩
          · exact ⟨ht, q, List.mem_append_right _ (List.mem_singleton.mpr rfl), hu⟩
        · rintro ⟨ht, q', hq', hu⟩
          rcases List.mem_append.mp hq' with hq' | hq'
          · exact Or.inl ⟨ht, q', hq', hu⟩
          · rw [List.mem_singleton.mp hq'] at hu
            exact Or.inr ⟨ht, hu⟩
    · rintro _ s'' ⟨hinvalid, hcache'⟩
      exact ⟨⟨q, hq, fun h => hinvalid ((href.valid _).mpr h)⟩, hcache'.trans hcache⟩
  · rintro _ ⟨hrowId, rfl⟩
    refine ⟨hrowId, fun _ hq => absurd hq List.not_mem_nil, rfl, fun _ => rfl, fun t u => ?_⟩
    simp
  · rintro _ s' ⟨-, hall, hcache, href⟩
    refine ⟨fun q hq => hall q (mem_inOrder.mpr hq), hcache, href.congr fun t u => ?_⟩
    simp only [mem_inOrder]

/-- The second loop, over infos whose paths are all valid. -/
theorem addAllReferences_outcome (infos : List ValidPathInfo) {s : LocalStore}
    (hvalid : ∀ i ∈ infos, s.db.Valid (store.printStorePath i.path)) :
    Run s (infos.forM (addReferences store))
      (fun _ s' => (∀ i ∈ infos, ∀ q ∈ i.references, s.db.Valid (store.printStorePath q)) ∧
        s'.pathInfoCache = s.pathInfoCache ∧
        Referenced s.db (fun t u => ∃ i ∈ infos, t = store.printStorePath i.path ∧
          ∃ q ∈ i.references, u = store.printStorePath q) s'.db)
      (fun _ s' => (∃ i ∈ infos, ∃ q ∈ i.references, ¬ s.db.Valid (store.printStorePath q)) ∧
        s'.pathInfoCache = s.pathInfoCache) := by
  refine Spec.weaken (Spec.loop infos
    (I := fun front s' =>
      (∀ i ∈ front, ∀ q ∈ i.references, s.db.Valid (store.printStorePath q)) ∧
      s'.pathInfoCache = s.pathInfoCache ∧
      Referenced s.db (fun t u => ∃ i ∈ front, t = store.printStorePath i.path ∧
        ∃ q ∈ i.references, u = store.printStorePath q) s'.db) ?_) ?_ (fun _ _ h => h)
    fun _ _ h => h
  · intro front i rest hl
    have hi : i ∈ infos := hl ▸ List.mem_append_right _ List.mem_cons_self
    refine Spec.at_state ?_
    rintro s' ⟨hall, hcache, href⟩
    refine (addReferences_outcome ((href.valid _).mpr (hvalid i hi))).weaken (fun _ h => h) ?_ ?_
    · rintro _ s'' ⟨hvalid', hcache', href'⟩
      refine ⟨?_, hcache'.trans hcache, (href.trans href').congr ?_⟩
      · intro j hj q hq
        rcases List.mem_append.mp hj with hj | hj
        · exact hall j hj q hq
        · rw [List.mem_singleton.mp hj] at hq
          exact (href.valid _).mp (hvalid' q hq)
      · intro t u
        simp only [List.mem_append, List.mem_singleton, or_and_right, exists_or, exists_eq_left]
    · rintro _ s'' ⟨⟨q, hq, hinvalid⟩, hcache'⟩
      exact ⟨⟨i, hi, q, hq, fun h => hinvalid ((href.valid _).mpr h)⟩, hcache'.trans hcache⟩
  · rintro _ rfl
    refine ⟨fun _ hi => absurd hi List.not_mem_nil, rfl, fun _ => rfl, fun t u => ?_⟩
    simp

/-! ## The call -/

/-- A transaction that throws puts the database back and nothing else. -/
theorem withTxn_spec {α : Type} {x : StoreM α} {s : LocalStore} {Q : α → LocalStore → Prop}
    {E : Error → LocalStore → Prop} (h : Run s x Q E) :
    Run s (withTxn x) Q (fun e s' => ∃ s'', E e s'' ∧ s' = { s'' with db := s.db }) := by
  rintro _ rfl
  rename_i s
  have hrun := h s rfl
  unfold withTxn
  cases hx : x s with
  | ok a s' =>
      rw [hx] at hrun
      exact hrun
  | error e s' =>
      rw [hx] at hrun
      exact ⟨s', hrun, rfl⟩

/-- The sort of the infos returns, whatever it finds. -/
theorem sortInfos_outcome (infos : ValidPathInfos) (s : LocalStore) :
    Run s (TopoSort.topoSort infos.paths fun path => pure (infoReferences infos path))
      (fun _ t => t = s) (fun (_ : Error) _ => False) := by
  refine (TopoSort.topoSort_spec (fun _ _ => False) (fun p q => q ∈ infoReferences infos p)
    ?_).weaken (fun _ h => h) (fun _ _ h => h.1) fun _ _ h => h
  intro x _
  exact Spec.ret fun t ht => ⟨ht, fun _ hy => hy, fun _ hy => hy.elim⟩

variable (store) in
/-- The references of the infos, between the texts of their paths. -/
def textRefers (infos : ValidPathInfos) (t u : Bytes) : Prop :=
  ∃ i ∈ infos.infos, t = store.printStorePath i.path ∧
    ∃ q ∈ i.references, u = store.printStorePath q

variable (store) in
/-- What `registerValidPaths` demands of infos. -/
structure Accepts (db : Db) (infos : ValidPathInfos) : Prop where
  passes : ∀ i ∈ infos.infos, passes store db i = true
  references : ∀ i ∈ infos.infos, ∀ q ∈ i.references,
    db.Valid (store.printStorePath q) ∨ q ∈ infos.paths

/-- Only a SHA-256 hash of the archive is accepted. -/
theorem Accepts.sha256 {db : Db} {infos : ValidPathInfos} (h : Accepts store db infos)
    {i : ValidPathInfo} (hi : i ∈ infos.infos) : i.narHash.algo = .sha256 := by
  have hpasses := h.passes i hi
  simp only [LocalStore.passes, Bool.and_eq_true, decide_eq_true_eq] at hpasses
  exact hpasses.1

variable (store) in
/-- The database after a call that returned. -/
structure Committed (now : Int) (db : Db) (infos : ValidPathInfos) (db' : Db) : Prop where
  other : ∀ t, (∀ i ∈ infos.infos, store.printStorePath i.path ≠ t) →
    db'.queryPathInfo t = db.queryPathInfo t
  updated : ∀ i ∈ infos.infos, ∀ row, db.queryPathInfo (store.printStorePath i.path) = some row →
    db'.queryPathInfo (store.printStorePath i.path) = some (updatedRow i row)
  added : ∀ i ∈ infos.infos, ¬ db.Valid (store.printStorePath i.path) →
    ∃ id, db'.queryPathInfo (store.printStorePath i.path)
      = some { columns store now i with id }
  refers : ∀ t u, db'.Refers t u ↔ db.Refers t u ∨ textRefers store infos t u

theorem Registered.committed {db db₁ db₂ : Db} {infos : ValidPathInfos}
    (h : Registered store now db infos.infos db₁)
    (h' : Referenced db₁ (textRefers store infos) db₂) :
    Committed store now db infos db₂ where
  other := fun t ht => (h'.query t).trans (h.other t ht)
  updated := fun i hi row hrow => (h'.query _).trans (h.updated i hi row hrow)
  added := by
    intro i hi hnew
    obtain ⟨id, hid⟩ := h.added i hi hnew
    exact ⟨id, (h'.query _).trans hid⟩
  refers := fun t u => by rw [h'.refers, h.refers]

/-- References are found if and only if they are valid after the first loop. -/
theorem references_valid_iff {db db₁ : Db} {infos : ValidPathInfos}
    (h : Registered store now db infos.infos db₁) (q : StorePath) :
    db₁.Valid (store.printStorePath q) ↔
      db.Valid (store.printStorePath q) ∨ q ∈ infos.paths := by
  rw [h.valid, ValidPathInfos.mem_paths]
  refine or_congr_right ⟨?_, ?_⟩
  · rintro ⟨i, hi, heq⟩
    exact ⟨i, hi, store.printStorePath_inj heq⟩
  · rintro ⟨i, hi, rfl⟩
    exact ⟨i, hi, rfl⟩

/-- The outcome of `registerValidPaths`: it returns exactly for the infos it
    accepts, with all of them committed; when it throws, the database is as it
    was, and the cache has every info that was entered as new. -/
theorem registerValidPaths_outcome (infos : ValidPathInfos) (s : LocalStore) :
    Run s (registerValidPaths store now infos)
      (fun _ s' => Accepts store s.db infos ∧
        s'.pathInfoCache = cacheAfter s.pathInfoCache (entered store s.db infos.infos) ∧
        Committed store now s.db infos s'.db)
      (fun _ s' => ¬ Accepts store s.db infos ∧
        s'.pathInfoCache = cacheAfter s.pathInfoCache (entered store s.db infos.infos) ∧
        s'.db = s.db) := by
  refine (withTxn_spec (E := fun _ s' => ¬ Accepts store s.db infos ∧
    s'.pathInfoCache = cacheAfter s.pathInfoCache (entered store s.db infos.infos)) ?_).weaken
    (fun _ h => h) (fun _ _ h => h) ?_
  -- the first loop enters the rows, and the infos into the cache
  · refine Spec.seq ((registerInfos_outcome infos.infos infos.nodup s).weaken (fun _ h => h)
      (fun _ _ h => h) ?_) ?_
    · rintro _ s' ⟨⟨i, hi, hfail⟩, hcache⟩
      refine ⟨fun hacc => ?_, hcache⟩
      rw [hacc.passes i hi] at hfail
      cases hfail
    intro _
    refine Spec.at_state ?_
    rintro s₁ ⟨hpasses, hcache₁, hreg⟩
    have hvalid : ∀ i ∈ infos.infos, s₁.db.Valid (store.printStorePath i.path) :=
      fun i hi => (hreg.valid _).mpr (Or.inr ⟨i, hi, rfl⟩)
    -- the second one the references
    refine Spec.seq ((addAllReferences_outcome infos.infos hvalid).weaken (fun _ h => h)
      (fun _ _ h => h) ?_) ?_
    · rintro _ s' ⟨⟨i, hi, q, hq, hinvalid⟩, hcache⟩
      exact ⟨fun hacc => hinvalid ((references_valid_iff hreg q).mpr (hacc.references i hi q hq)),
        hcache.trans hcache₁⟩
    intro _
    refine Spec.at_state ?_
    rintro s₂ ⟨hrefs, hcache₂, href⟩
    refine Spec.seq ((sortInfos_outcome infos s₂).weaken (fun _ h => h) (fun _ _ h => h)
      fun _ _ h => h.elim) ?_
    intro r
    -- whatever the sort says, its visit does nothing
    have hend : visitSorted r = pure () := by
      cases r with
      | error c => rfl
      | ok sorted => rfl
    rw [hend]
    refine Spec.ret ?_
    rintro _ rfl
    refine ⟨⟨hpasses, ?_⟩, hcache₂.trans hcache₁, hreg.committed href⟩
    exact fun i hi q hq => (references_valid_iff hreg q).mp (hrefs i hi q hq)
  -- a rollback gives the database back, and not the cache
  · rintro _ _ ⟨s', ⟨hacc, hcache⟩, rfl⟩
    exact ⟨hacc, hcache, rfl⟩

end LocalStore

/-! ## Sample infos -/

namespace LocalStore
namespace Sample

open Wire

/-- The usual store directory; no digest is computed in the samples. -/
def store : StoreDirConfig where
  comps := [ascii "nix", ascii "store"]
  normal := StoreDir.normal_nixStore
  hashString := fun algo _ => ⟨⟨algo, List.replicate (regularHashSize algo) 0, Hash.size_zeros algo⟩, rfl⟩

/-- A store path that differs from others in its last letter. -/
def pathA : StorePath := ⟨ascii "00000000000000000000000000000000-a", by decide +kernel⟩

/-- A second store path. -/
def pathB : StorePath := ⟨ascii "00000000000000000000000000000000-b", by decide +kernel⟩

/-- An info with these references and nothing else of interest. -/
def info (path : StorePath) (references : Finset StorePath) : ValidPathInfo where
  path := path
  deriver := none
  narHash := ⟨.sha256, List.replicate 32 0, Hash.size_zeros .sha256⟩
  references := references
  registrationTime := 0
  narSize := 0
  ultimate := false
  sigs := ∅
  ca := none

/-- An info that refers to a path nobody has registered. -/
def dangling : ValidPathInfos := .single (info pathA {pathB})

/-- Its registration fails after the path has been entered in the cache. -/
theorem dangling_fails :
    ∃ e s', registerValidPaths store 1 dangling (fresh 10) = .error e s' ∧
      s'.pathInfoCache.find pathA = some (some (info pathA {pathB})) := by
  have hfails : Effect.returns (registerValidPaths store 1 dangling (fresh 10)) = false := by
    decide +kernel
  obtain ⟨e, s', hrun⟩ := Effect.error_of_not_returns hfails
  obtain ⟨-, hcache, -⟩ := (registerValidPaths_outcome dangling (fresh 10)).of_error rfl hrun
  refine ⟨e, s', hrun, ?_⟩
  rw [hcache]
  decide +kernel

end Sample

end LocalStore
end NixStore
