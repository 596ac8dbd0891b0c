/-
  NixStore.Store.RoundTrip

  What is exported can be imported into an empty store (`exportPaths` and
  `importPaths`, `libstore/export-import.cc`).

  The export answers every query from the cache or from the database, so what
  it writes is determined as long as the two agree on the exported paths
  (`Answers`).  The import of such a stream goes through record by record,
  because the order of the export puts every path behind its references.
-/

import NixStore.Store.AddFromDump
import NixStore.Store.ExportImport

namespace NixStore

open Effect OrderedSet Wire Relation

-- ============================================================================
-- Queries about the exported paths
-- ============================================================================

/-- Two infos agree on what an export looks at. -/
structure ValidPathInfo.Agree (a b : ValidPathInfo) : Prop where
  narHash_eq : a.narHash = b.narHash
  references_eq : a.references = b.references
  deriver_eq : a.deriver = b.deriver

theorem ValidPathInfo.Agree.refl (a : ValidPathInfo) : a.Agree a := ⟨rfl, rfl, rfl⟩

namespace LocalStore

variable {store : StoreDirConfig} {db : Db} {P : Finset StorePath}
  {info : StorePath → ValidPathInfo}

/-- A deriver that is read from the database is readable. -/
theorem readable_deriver {p d : StorePath} {i : ValidPathInfo}
    (h : queryPathInfoInternal store db p = .ok (some i)) (hd : i.deriver = some d) :
    Readable d := by
  unfold queryPathInfoInternal at h
  cases hrow : db.queryPathInfo (store.printStorePath p) with
  | none =>
      rw [hrow] at h
      cases h
  | some row =>
      rw [hrow] at h
      simp only [NixStore.bind_eq_ok, pure_eq_ok, Except.ok.injEq, Option.some.injEq] at h
      obtain ⟨_, -, deriver, hderiver, _, -, _, -, _, -, rfl⟩ := h
      subst hd
      unfold readDeriver at hderiver
      cases hcolumn : row.deriver with
      | none =>
          rw [hcolumn] at hderiver
          cases hderiver
      | some text =>
          rw [hcolumn] at hderiver
          cases hparse : store.parseStorePath (cString text) with
          | error e =>
              simp only [hparse] at hderiver
              cases hderiver
          | ok q =>
              simp only [hparse] at hderiver
              cases hderiver
              exact readable_of_parse_cString hparse

/-- A state with this database whose cache has nothing else about these paths. -/
structure Answers (db : Db) (P : Finset StorePath) (info : StorePath → ValidPathInfo)
    (s : LocalStore) : Prop where
  db_eq : s.db = db
  cached : ∀ p ∈ P, ∀ v, s.pathInfoCache.find p = some v → ∃ i, v = some i ∧ i.Agree (info p)

/-- A look into the cache. -/
theorem cacheGet_answers {p : StorePath} (hp : p ∈ P) :
    Spec (Answers db P info) (cacheGet p)
      (fun found s => Answers db P info s ∧
        ∀ v, found = some v → ∃ i, v = some i ∧ i.Agree (info p)) (fun _ _ => False) := by
  intro s hs
  refine ⟨⟨hs.db_eq, fun q hq v hv => hs.cached q hq v ?_⟩, fun v hv => hs.cached p hp v ?_⟩
  · exact (s.pathInfoCache.find_get p q).symm.trans hv
  · exact (s.pathInfoCache.get_fst p).symm.trans hv

theorem queryPathInfo_answers
    (hinfo : ∀ p ∈ P, queryPathInfoInternal store db p = .ok (some (info p))) {p : StorePath}
    (hp : p ∈ P) :
    Spec (Answers db P info) (queryPathInfo store p)
      (fun i s => Answers db P info s ∧ i.Agree (info p)) (fun _ _ => False) := by
  refine Spec.seq (cacheGet_answers hp) fun found => ?_
  match found with
  | some none =>
      rintro s ⟨-, hfound⟩
      obtain ⟨i, heq, -⟩ := hfound none rfl
      cases heq
  | some (some i) =>
      refine Spec.ret ?_
      rintro s ⟨hs, hfound⟩
      obtain ⟨i', heq, hagree⟩ := hfound (some i) rfl
      cases heq
      exact ⟨hs, hagree⟩
  | none =>
      refine Spec.at_state fun s hs => ?_
      obtain ⟨hs, -⟩ := hs
      have hread : queryPathInfoInternal store s.db p = .ok (some (info p)) := by
        rw [hs.db_eq]
        exact hinfo p hp
      refine Spec.seq ((onDb_query _ s).weaken (fun _ h => h) (fun _ _ h => h) ?_) fun value => ?_
      · rintro e _ ⟨herror, rfl⟩
        rw [hread] at herror
        cases herror
      refine Spec.seq (Q := fun _ s' => value = some (info p) ∧ Answers db P info s') ?_ ?_
      · rintro _ ⟨hvalue, rfl⟩
        rename_i s
        rw [hread] at hvalue
        cases hvalue
        refine ⟨rfl, hs.db_eq, fun q hq v hv => ?_⟩
        by_cases hqp : q = p
        · subst hqp
          exact ⟨info q, LruCache.find_upsert_self_eq hv, .refl _⟩
        · exact hs.cached q hq v (LruCache.find_of_find_upsert hqp hv)
      · rintro _ s' ⟨rfl, hs'⟩
        rw [answer, queryPathInfoInternal_path hread, goodStorePath_self, if_pos rfl]
        exact ⟨hs', .refl _⟩

theorem isValidPath_answers
    (hinfo : ∀ p ∈ P, queryPathInfoInternal store db p = .ok (some (info p))) {p : StorePath}
    (hp : p ∈ P) :
    Spec (Answers db P info) (isValidPath store p)
      (fun b s => Answers db P info s ∧ b = true) (fun _ _ => False) := by
  refine Spec.seq (cacheGet_answers hp) fun found => ?_
  match found with
  | some v =>
      refine Spec.ret ?_
      rintro s ⟨hs, hfound⟩
      obtain ⟨i, rfl, -⟩ := hfound v rfl
      exact ⟨hs, rfl⟩
  | none =>
      rintro s ⟨hs, -⟩
      refine ⟨hs, ?_⟩
      have hvalid : s.db.Valid (store.printStorePath p) := by
        by_contra hinvalid
        rw [hs.db_eq] at hinvalid
        have hnone := queryPathInfoInternal_eq_none.mpr hinvalid
        rw [hinfo p hp] at hnone
        cases hnone
      exact Db.isSome_queryPathInfo.mpr hvalid

/-- The sort of the exported paths throws only if they have a cycle. -/
theorem topoSortPaths_answers
    (hinfo : ∀ p ∈ P, queryPathInfoInternal store db p = .ok (some (info p))) :
    Spec (Answers db P info) (topoSortPaths store P)
      (fun sorted s => Answers db P info s ∧
        TopoSort.Sorted P (fun p q => q ∈ (info p).references) sorted)
      (fun _ _ => ¬ Acyclic (TopoSort.ItemEdge P fun p q => q ∈ (info p).references)) := by
  have hchildren : ∀ p ∈ P, Spec (Answers db P info) (pathReferences store p)
      (fun l s => Answers db P info s ∧ (∀ q ∈ l, q ∈ (info p).references) ∧
        ∀ q, q ∈ (info p).references → q ∈ l) (fun _ _ => False) := by
    intro p hp
    refine orInvalid_spec (Spec.seq (queryPathInfo_answers hinfo hp) fun i => Spec.ret ?_)
      fun _ _ h => h.elim
    rintro s ⟨hs, hagree⟩
    rw [hagree.references_eq]
    exact ⟨hs, fun q hq => mem_inOrder.mp hq, fun q hq => mem_inOrder.mpr hq⟩
  refine Spec.seq ((TopoSort.topoSort_spec _ _ hchildren).weaken (fun _ h => h) (fun _ _ h => h)
    fun _ _ h => h.elim) fun r => ?_
  cases r with
  | error c =>
      refine Spec.raise ?_
      exact fun s h hacyclic => hacyclic c.path h.2
  | ok sorted => exact Spec.ret fun s h => h

end LocalStore

-- ============================================================================
-- What an export writes
-- ============================================================================

namespace DiskStore

variable {store : StoreDirConfig}

variable (store) in
/-- What a store has about the paths to be exported. -/
structure Exportable (s : DiskStore) (P : Finset StorePath) (info : StorePath → ValidPathInfo)
    (nar : StorePath → Bytes) : Prop where
  info_eq : ∀ p ∈ P, LocalStore.queryPathInfoInternal store s.db p = .ok (some (info p))
  cached : ∀ p ∈ P, ∀ v, s.pathInfoCache.find p = some v → ∃ i, v = some i ∧ i.Agree (info p)
  archive : ∀ p ∈ P, ∃ f, s.tree p = some f ∧ dumpPath NarNode.plain defaultPathFilter f = .ok (nar p)

variable (store) in
/-- The stream with the records of these paths, in this order. -/
def streamOf (info : StorePath → ValidPathInfo) (nar : StorePath → Bytes) :
    List StorePath → Bytes
  | [] => writeNum 0
  | p :: rest =>
      writeNum 1 ++ (recordBytes store (nar p) p (info p).references (info p).deriver ++
        streamOf info nar rest)

variable {P : Finset StorePath} {info : StorePath → ValidPathInfo} {nar : StorePath → Bytes}

/-- Queries that the cache and the database answer alike. -/
theorem Exportable.onStore {α : Type} {x : StoreM α} {Q : α → Prop} {E : Prop}
    (hx : ∀ db, (∀ p ∈ P, LocalStore.queryPathInfoInternal store db p = .ok (some (info p))) →
      Spec (LocalStore.Answers db P info) x (fun a s => LocalStore.Answers db P info s ∧ Q a)
        (fun _ _ => E)) :
    Spec (fun s => Exportable store s P info nar) (onStore x)
      (fun a s => Exportable store s P info nar ∧ Q a) (fun _ _ => E) := by
  refine Spec.at_state fun s hs => ?_
  refine (onStore_spec (Q := fun a t => LocalStore.Answers s.db P info t ∧ Q a)
    (E := fun _ _ => E) ?_).weaken (fun _ h => h) ?_ fun _ _ h => h.1
  · refine (hx s.db hs.info_eq).weaken ?_ (fun _ _ h => h) fun _ _ h => h
    rintro _ rfl
    exact ⟨rfl, hs.cached⟩
  · rintro a s' ⟨⟨hanswers, hq⟩, hfiles⟩
    refine ⟨⟨?_, hanswers.cached, ?_⟩, hq⟩
    · rw [hanswers.db_eq]
      exact hs.info_eq
    · intro p hp
      rw [tree, hfiles]
      exact hs.archive p hp

theorem narFromPath_exportable {p : StorePath} (hp : p ∈ P) :
    Spec (fun s => Exportable store s P info nar) (narFromPath store p)
      (fun b s => Exportable store s P info nar ∧ b = nar p) (fun _ _ => False) := by
  refine Spec.seq (Exportable.onStore fun db hinfo => LocalStore.isValidPath_answers hinfo hp)
    fun b => Spec.cond ?_ ?_
  · intro _ s hs
    obtain ⟨f, htree, hdump⟩ := hs.1.archive p hp
    rw [bind_of_ok (get_run s), htree]
    simp only [hdump, fromExcept_ok]
    exact ⟨hs.1, trivial⟩
  · rintro hb s ⟨-, rfl⟩
    exact absurd rfl hb

/-- The record of a path, unless its contents have changed. -/
theorem exportPath_exportable {p : StorePath} (hp : p ∈ P) :
    Spec (fun s => Exportable store s P info nar) (exportPath store p)
      (fun b s => Exportable store s P info nar ∧
        b = recordBytes store (nar p) p (info p).references (info p).deriver)
      (fun _ _ => (store.hashString .sha256 (nar p)).1 ≠ (info p).narHash) := by
  refine Spec.seq ((Exportable.onStore fun db hinfo =>
    LocalStore.queryPathInfo_answers hinfo hp).weaken (fun _ h => h) (fun _ _ h => h)
      fun _ _ h => h.elim) fun i => Spec.at_state fun s hs => ?_
  obtain ⟨hs, hagree⟩ := hs
  refine Spec.seq ((narFromPath_exportable hp).weaken (fun t ht => ht ▸ hs) (fun _ _ h => h)
    fun _ _ h => h.elim) fun b => ?_
  refine Spec.seq (Q := fun _ t => Exportable store t P info nar ∧ b = nar p) (Spec.lift ?_ ?_)
    fun _ => Spec.ret ?_
  · exact fun _ t _ ht => ht
  · rintro e t hfail ⟨-, rfl⟩ heq
    rw [checkUnchanged, throwIf, if_neg] at hfail
    · cases hfail
    · rw [hagree.narHash_eq, heq]
      exact fun h => h.1 (Hash.equals_self _)
  · rintro t ⟨ht, rfl⟩
    rw [hagree.references_eq, hagree.deriver_eq]
    exact ⟨ht, rfl⟩

theorem exportEach_exportable {l : List StorePath} (hl : ∀ p ∈ l, p ∈ P) :
    Spec (fun s => Exportable store s P info nar) (exportEach store l)
      (fun b s => Exportable store s P info nar ∧ b = streamOf store info nar l)
      (fun _ _ => ∃ p ∈ l, (store.hashString .sha256 (nar p)).1 ≠ (info p).narHash) := by
  induction l with
  | nil => exact Spec.ret fun s hs => ⟨hs, rfl⟩
  | cons p l ih =>
      refine Spec.seq ((exportPath_exportable (hl p List.mem_cons_self)).weaken (fun _ h => h)
        (fun _ _ h => h) fun _ _ h => ⟨p, List.mem_cons_self, h⟩) fun b => ?_
      refine Spec.at_state fun s hs => ?_
      obtain ⟨hs, rfl⟩ := hs
      refine Spec.seq ((ih fun q hq => hl q (List.mem_cons_of_mem _ hq)).weaken
        (fun t ht => ht ▸ hs) (fun _ _ h => h) ?_) fun b' => Spec.ret ?_
      · rintro _ _ ⟨q, hq, hne⟩
        exact ⟨q, List.mem_cons_of_mem _ hq, hne⟩
      · rintro t ⟨ht, rfl⟩
        exact ⟨ht, rfl⟩

/-- The records of all paths, each behind those of its references; unless the
    contents of one have changed or they have a cycle. -/
theorem exportPaths_exportable :
    Spec (fun s => Exportable store s P info nar) (exportPaths store P)
      (fun b _ => ∃ sorted, TopoSort.Sorted P (fun p q => q ∈ (info p).references) sorted ∧
        b = streamOf store info nar sorted.reverse)
      (fun _ _ => (∃ p ∈ P, (store.hashString .sha256 (nar p)).1 ≠ (info p).narHash) ∨
        ¬ Acyclic (TopoSort.ItemEdge P fun p q => q ∈ (info p).references)) := by
  refine Spec.seq ((Exportable.onStore fun db hinfo =>
    LocalStore.topoSortPaths_answers hinfo).weaken (fun _ h => h) (fun _ _ h => h)
      fun _ _ h => Or.inr h) fun sorted => Spec.at_state fun s hs => ?_
  obtain ⟨hs, hsorted⟩ := hs
  have hmem : ∀ p ∈ sorted.reverse, p ∈ P :=
    fun p hp => (hsorted.mem_iff p).mp (List.mem_reverse.mp hp)
  refine (exportEach_exportable hmem).weaken (fun t ht => ht ▸ hs) ?_ ?_
  · rintro b t ⟨-, rfl⟩
    exact ⟨sorted, hsorted, rfl⟩
  · rintro _ _ ⟨p, hp, hne⟩
    exact Or.inl ⟨p, hmem p hp, hne⟩

-- ============================================================================
-- Importing such a stream
-- ============================================================================

variable (store) in
/-- A store that has these paths and has never heard of any other. -/
structure Clean (s : DiskStore) (done : List StorePath) : Prop where
  valid : ∀ t, s.db.Valid t ↔ ∃ p ∈ done, t = store.printStorePath p
  cached : ∀ p v, s.pathInfoCache.find p = some v → p ∈ done

theorem clean_fresh (n : Nat) : Clean store (fresh n) [] where
  valid := by
    intro t
    constructor
    · rintro ⟨r, hr, -⟩
      exact absurd hr List.not_mem_nil
    · rintro ⟨p, hp, -⟩
      exact absurd hp List.not_mem_nil
  cached := by
    intro p v h
    cases h

theorem Clean.wanted {s : DiskStore} {done : List StorePath} (h : Clean store s done)
    {p : StorePath} (hp : p ∉ done) : Wanted store s p false := by
  have hnew : ¬ s.db.Valid (store.printStorePath p) := by
    intro hvalid
    obtain ⟨q, hq, htext⟩ := (h.valid _).mp hvalid
    rw [← store.printStorePath_inj htext] at hq
    exact hp hq
  refine Or.inr ⟨?_, hnew⟩
  unfold SeemsValid
  cases hfind : s.pathInfoCache.find p with
  | none => exact hnew
  | some v => exact absurd (h.cached p v hfind) hp

/-- A cache entry after infos have been entered is new or was there. -/
theorem find_entered {cache : LruCache StorePath (Option ValidPathInfo)} {db : Db}
    {i : ValidPathInfo} {q : StorePath} {v : Option ValidPathInfo}
    (h : (LocalStore.cacheAfter cache (LocalStore.entered store db [i])).find q = some v) :
    q = i.path ∨ cache.find q = some v := by
  by_cases hq : q = i.path
  · exact Or.inl hq
  refine Or.inr ?_
  have hone : ∀ j ∈ LocalStore.entered store db [i], j = i :=
    fun j hj => List.mem_singleton.mp (LocalStore.mem_entered hj).1
  cases hlist : LocalStore.entered store db [i] with
  | nil =>
      rw [hlist] at h
      exact h
  | cons j rest =>
      have hrest : rest = [] := by
        have hlen : (LocalStore.entered store db [i]).length ≤ 1 := by
          unfold LocalStore.entered
          exact ((List.length_filter_le _ _).trans
            (List.takeWhile_sublist _).length_le)
        rw [hlist] at hlen
        exact List.length_eq_zero_iff.mp (by simpa using hlen)
      have hj := hone j (by rw [hlist]; exact List.mem_cons_self)
      rw [hlist, hrest, hj] at h
      exact LruCache.find_of_find_upsert hq h

/-- A record of a new path, whose references are there, is entered. -/
theorem addToStore_clean {now : Int} {s : DiskStore} {done : List StorePath}
    (hclean : Clean store s done) {p : StorePath} (hp : p ∉ done) (hnamed : realName p ≠ none)
    {references : Finset StorePath} {deriver : Option StorePath} {b : Bytes}
    (harchive : ∃ f : File, f.WithinLimits narMaxDepth ∧
      dumpPath NarNode.plain defaultPathFilter f = .ok b)
    (hrefs : ∀ q ∈ references, q ∈ done ∨ q = p) :
    ∃ s', addToStore store now (recordInfo store b p references deriver) b false s = .ok () s' ∧
      Clean store s' (done ++ [p]) ∧ Keeps store s s' ∧
      Entered store now s' (recordInfo store b p references deriver) b := by
  have hregisters : Registers store s (recordInfo store b p references deriver) b := by
    refine registers_record (hclean.wanted hp) hnamed harchive fun q hq => ?_
    exact (hrefs q hq).imp_left fun h => (hclean.valid _).mpr ⟨q, h, rfl⟩
  have hstep : Run s (addToStore store now (recordInfo store b p references deriver) b false) _ _ :=
    addToStore_step _ b s
  have houtcome : Run s (addToStore store now (recordInfo store b p references deriver) b false)
      _ _ := addToStore_outcome _ b false s
  cases hrun : addToStore store now (recordInfo store b p references deriver) b false s with
  | error e s' => exact absurd hregisters (hstep.of_error rfl hrun).2.1
  | ok u s' =>
      obtain ⟨hkeep, hentered, hvalid⟩ := hstep.of_ok rfl hrun
      refine ⟨s', rfl, ⟨?_, ?_⟩, hkeep, hentered hregisters⟩
      · intro t
        rw [hvalid, hclean.valid]
        constructor
        · rintro (⟨q, hq, rfl⟩ | ⟨-, rfl⟩)
          · exact ⟨q, List.mem_append_left _ hq, rfl⟩
          · exact ⟨p, List.mem_append_right _ List.mem_cons_self, rfl⟩
        · rintro ⟨q, hq, rfl⟩
          rcases List.mem_append.mp hq with hq | hq
          · exact Or.inl ⟨q, hq, rfl⟩
          · rw [List.mem_singleton.mp hq]
            exact Or.inr ⟨hregisters, rfl⟩
      · intro q v hfind
        cases houtcome.of_ok rfl hrun with
        | skipped _ _ hsame =>
            rw [hsame.find_eq] at hfind
            exact List.mem_append_left _ (hclean.cached q v hfind)
        | valid _ _ hold _ _ _ => exact absurd hold hregisters.new
        | imported s₁ _ hsame himported =>
            rw [himported.cache_eq] at hfind
            rcases find_entered hfind with rfl | hold
            · exact List.mem_append_right _ List.mem_cons_self
            · rw [hsame.find_eq] at hold
              exact List.mem_append_left _ (hclean.cached q v hold)

section Stream

variable {badStream : String} {check : StorePath → Hash → Except Error Unit} {now : Int}

variable (store) in
/-- The records of these paths can be read back and have a place. -/
def Readables (info : StorePath → ValidPathInfo) (nar : StorePath → Bytes)
    (l : List StorePath) : Prop :=
  ∀ p ∈ l, Recordable store (nar p) p (info p).references (info p).deriver ∧ realName p ≠ none

theorem streamOf_read (p : StorePath) (rest : List StorePath) :
    readNum (streamOf store info nar (p :: rest)) = .ok (1,
      recordBytes store (nar p) p (info p).references (info p).deriver ++
        streamOf store info nar rest) :=
  readNum_eq_ok.mpr ⟨by decide, rfl⟩

theorem length_lt_streamOf (l : List StorePath) : l.length < (streamOf store info nar l).length := by
  induction l with
  | nil =>
      show 0 < (writeNum 0).length
      rw [writeNum_length]
      decide
  | cons p l ih =>
      simp only [streamOf, List.length_append, List.length_cons, writeNum_length]
      omega

/-- A stream whose records come behind their references, and pass the check, is
    imported as a whole. -/
theorem importLoop_stream (badStream : String) (check : StorePath → Hash → Except Error Unit)
    (now : Int) {l done : List StorePath} (hl : Readables store info nar l)
    (hcheck : ∀ p ∈ l, check p (store.hashString .sha256 (nar p)).1 = .ok ())
    (hnodup : (done ++ l).Nodup)
    (hrefs : ∀ front p rest, l = front ++ p :: rest →
      ∀ q ∈ (info p).references, q ∈ done ++ front ∨ q = p)
    {s : DiskStore} (hclean : Clean store s done) {rounds : Nat} (hrounds : l.length < rounds) :
    ∃ t, importLoop store badStream check now rounds (streamOf store info nar l) s = .ok l t ∧
      Clean store t (done ++ l) ∧ Keeps store s t ∧
      ∀ p ∈ l, Entered store now t
        (recordInfo store (nar p) p (info p).references (info p).deriver) (nar p) := by
  induction l generalizing done s rounds with
  | nil =>
      obtain ⟨rounds, rfl⟩ := Nat.exists_eq_succ_of_ne_zero (Nat.ne_of_gt hrounds)
      refine ⟨s, rfl, ?_, Keeps.refl s, fun p hp => absurd hp List.not_mem_nil⟩
      rw [List.append_nil]
      exact hclean
  | cons p l ih =>
      obtain ⟨rounds, rfl⟩ := Nat.exists_eq_succ_of_ne_zero (Nat.ne_of_gt
        (lt_of_le_of_lt (Nat.zero_le _) hrounds))
      obtain ⟨hrecordable, hnamed⟩ := hl p List.mem_cons_self
      have hrecord := parseRecord_recordBytes check hrecordable (streamOf store info nar l)
      rw [hcheck p List.mem_cons_self, ok_bind] at hrecord
      have hnew : p ∉ done := by
        intro hp
        exact (List.disjoint_of_nodup_append hnodup) hp List.mem_cons_self
      have hfirst : ∀ q ∈ (info p).references, q ∈ done ∨ q = p := by
        intro q hq
        have := hrefs [] p l rfl q hq
        rwa [List.append_nil] at this
      obtain ⟨s₁, hadd, hclean₁, hkeep₁, hentered₁⟩ :=
        addToStore_clean hclean hnew hnamed hrecordable.archive hfirst
      have happend : done ++ p :: l = (done ++ [p]) ++ l := by
        rw [List.append_assoc, List.singleton_append]
      have hnodup' : ((done ++ [p]) ++ l).Nodup := happend ▸ hnodup
      obtain ⟨t, hrun, hclean', hkeep', hentered'⟩ := ih
        (fun q hq => hl q (List.mem_cons_of_mem _ hq))
        (fun q hq => hcheck q (List.mem_cons_of_mem _ hq)) hnodup'
        (fun front q rest hsplit r hr => by
          have := hrefs (p :: front) q rest (by rw [hsplit, List.cons_append]) r hr
          rwa [List.append_assoc, List.singleton_append])
        hclean₁ (Nat.lt_of_succ_lt_succ hrounds)
      refine ⟨t, ?_, happend ▸ hclean', hkeep₁.trans hkeep', ?_⟩
      · rw [importLoop_record (streamOf_read p l) hrecord, bind_of_ok hadd, bind_of_ok hrun]
        rfl
      · intro q hq
        rcases List.mem_cons.mp hq with rfl | hq
        · exact hentered₁.keep hkeep'
        · exact hentered' q hq

/-- If such a stream is imported as a whole, every record has passed. -/
theorem checked_of_importLoop {l : List StorePath} (hl : Readables store info nar l)
    {s t : DiskStore} {rounds : Nat} {res : List StorePath}
    (h : importLoop store badStream check now rounds (streamOf store info nar l) s = .ok res t) :
    ∀ p ∈ l, check p (store.hashString .sha256 (nar p)).1 = .ok () := by
  induction l generalizing s t rounds res with
  | nil => exact fun p hp => absurd hp List.not_mem_nil
  | cons p l ih =>
      cases rounds with
      | zero => cases h
      | succ rounds =>
          have hrecord := parseRecord_recordBytes check (hl p List.mem_cons_self).1
            (streamOf store info nar l)
          cases hcheck : check p (store.hashString .sha256 (nar p)).1 with
          | error e =>
              rw [hcheck] at hrecord
              rw [importLoop, bind_of_ok (by rw [streamOf_read, fromExcept_ok])] at h
              simp only at h
              rw [if_neg (by decide),
                bind_of_ok (by rw [throwIf, if_neg (by decide), fromExcept_ok]),
                bind_of_error (by rw [hrecord]; exact fromExcept_error e s)] at h
              cases h
          | ok u =>
              rw [hcheck, ok_bind] at hrecord
              rw [importLoop_record (streamOf_read p l) hrecord] at h
              obtain ⟨-, s₁, -, h⟩ := Effect.bind_eq_ok.mp h
              obtain ⟨res', s₂, hrest, -⟩ := Effect.bind_eq_ok.mp h
              intro q hq
              rcases List.mem_cons.mp hq with rfl | hq
              · exact hcheck
              · exact ih (fun r hr => hl r (List.mem_cons_of_mem _ hr)) hrest q hq

end Stream

-- ============================================================================
-- The round trip
-- ============================================================================

variable (store) in
/-- Paths that can be shipped: each is registered with the hash of the tree
    that is there, a tree that an archive can hold, and refers to paths among
    them only.  64 bits are enough for the lengths in its record. -/
def Shippable (s : DiskStore) (P : Finset StorePath) : Prop :=
  ∀ p ∈ P, ∃ i f b, LocalStore.queryPathInfoInternal store s.db p = .ok (some i) ∧
    s.tree p = some f ∧ f.WithinLimits narMaxDepth ∧
    dumpPath NarNode.plain defaultPathFilter f = .ok b ∧
    i.narHash = (store.hashString .sha256 b).1 ∧ (∀ q ∈ i.references, q ∈ P) ∧
    (recordBytes store b p i.references i.deriver).length < 2 ^ 64

variable (store) in
/-- The references registered for a path. -/
def RegisteredRefers (s : DiskStore) (p q : StorePath) : Prop :=
  ∃ i, LocalStore.queryPathInfoInternal store s.db p = .ok (some i) ∧ q ∈ i.references

variable (store) in
/-- A path is registered alike in two stores, and its trees are the same. -/
structure SamePath (s t : DiskStore) (p : StorePath) : Prop where
  registered : ∃ i j, LocalStore.queryPathInfoInternal store s.db p = .ok (some i) ∧
    LocalStore.queryPathInfoInternal store t.db p = .ok (some j) ∧
    j.narHash = i.narHash ∧ j.narSize = i.narSize ∧ j.references = i.references ∧
    j.deriver = i.deriver
  tree_eq : t.tree p = s.tree p

variable (store) in
/-- What is exported is imported into an empty store: exactly these paths, each
    behind its references, and all of them as they were. -/
def RoundTrips (now : Int) (pathInfoCacheSize : Nat) (s : DiskStore) (P : Finset StorePath) :
    Prop :=
  ∃ bytes s', exportPaths store P s = .ok bytes s' ∧
    ∃ paths t, importPaths store now bytes (fresh pathInfoCacheSize) = .ok paths t ∧
      paths.Nodup ∧ (∀ p, p ∈ paths ↔ p ∈ P) ∧
      (∀ front p rest, paths = front ++ p :: rest →
        ∀ q, RegisteredRefers store s p q → q ∈ front ∨ q = p) ∧
      ∀ p ∈ P, SamePath store s t p

variable (store) in
/-- The cache and the database say the same about these paths, the paths have
    no cycle, and the sizes that are registered are those of the archives. -/
structure Consistent (s : DiskStore) (P : Finset StorePath) : Prop where
  cached : ∀ p ∈ P, ∀ v, s.pathInfoCache.find p = some v → ∃ i j, v = some i ∧
    LocalStore.queryPathInfoInternal store s.db p = .ok (some j) ∧ i.Agree j
  acyclic : Acyclic (TopoSort.ItemEdge P (RegisteredRefers store s))
  narSize : ∀ p ∈ P, ∀ i f b, LocalStore.queryPathInfoInternal store s.db p = .ok (some i) →
    s.tree p = some f → dumpPath NarNode.plain defaultPathFilter f = .ok b →
    i.narSize = UInt64.ofNat b.length

/-- A sorted list in reverse has every path behind its references. -/
theorem references_before {sorted : List StorePath}
    (hsorted : TopoSort.Sorted P (fun p q => q ∈ (info p).references) sorted)
    (hclosed : ∀ p ∈ P, ∀ q ∈ (info p).references, q ∈ P) (front rest : List StorePath)
    (p : StorePath) (hsplit : sorted.reverse = front ++ p :: rest) :
    ∀ q ∈ (info p).references, q ∈ front ∨ q = p := by
  intro q hq
  have hforward : sorted = rest.reverse ++ p :: front.reverse := by
    rw [← List.reverse_reverse sorted, hsplit, List.reverse_append, List.reverse_cons,
      List.append_assoc, List.singleton_append]
  have hp : p ∈ P := by
    rw [← hsorted.mem_iff p, hforward]
    exact List.mem_append_right _ List.mem_cons_self
  by_cases hqp : q = p
  · exact Or.inr hqp
  · refine Or.inl (List.mem_reverse.mp ?_)
    exact hsorted.parentsFirst _ p _ hforward q (hclosed p hp q hq) hq hqp

theorem importPaths_exportPaths (now : Int) (pathInfoCacheSize : Nat) (s : DiskStore)
    (P : Finset StorePath) (h : Shippable store s P) (hconsistent : Consistent store s P) :
    RoundTrips store now pathInfoCacheSize s P := by
  -- name what the store has of each path
  have hchoose : ∀ p, ∃ i f b, p ∈ P →
      LocalStore.queryPathInfoInternal store s.db p = .ok (some i) ∧ s.tree p = some f ∧
      f.WithinLimits narMaxDepth ∧ dumpPath NarNode.plain defaultPathFilter f = .ok b ∧
      i.narHash = (store.hashString .sha256 b).1 ∧ (∀ q ∈ i.references, q ∈ P) ∧
      (recordBytes store b p i.references i.deriver).length < 2 ^ 64 := by
    intro p
    by_cases hp : p ∈ P
    · obtain ⟨i, f, b, hrest⟩ := h p hp
      exact ⟨i, f, b, fun _ => hrest⟩
    · exact ⟨recordInfo store [] p ∅ none, .regular false [], [], fun hp' => absurd hp' hp⟩
  choose info file nar hhas using hchoose
  have hrefers : ∀ p ∈ P, ∀ q, RegisteredRefers store s p q ↔ q ∈ (info p).references := by
    intro p hp q
    constructor
    · rintro ⟨i, hi, hq⟩
      rw [(hhas p hp).1] at hi
      cases hi
      exact hq
    · exact fun hq => ⟨info p, (hhas p hp).1, hq⟩
  have hexportable : Exportable store s P info nar := by
    refine ⟨fun p hp => (hhas p hp).1, ?_, fun p hp => ⟨file p, (hhas p hp).2.1, (hhas p hp).2.2.2.1⟩⟩
    intro p hp v hv
    obtain ⟨i, j, rfl, hj, hagree⟩ := hconsistent.cached p hp v hv
    rw [(hhas p hp).1] at hj
    cases hj
    exact ⟨i, rfl, hagree⟩
  have hacyclic : Acyclic (TopoSort.ItemEdge P fun p q => q ∈ (info p).references) := by
    refine hconsistent.acyclic.mono ?_
    rintro p q ⟨hq, hp, hqP⟩
    exact ⟨(hrefers p hp q).mpr hq, hp, hqP⟩
  have hnamed : ∀ p ∈ P, realName p ≠ none := fun p hp => realName_of_tree (hhas p hp).2.1
  have hreadable : ∀ p ∈ P, LocalStore.Readable p := fun p hp => readable_of_realName (hnamed p hp)
  have hderiver : ∀ p ∈ P, ∀ d, (info p).deriver = some d → LocalStore.Readable d :=
    fun p hp d hd => LocalStore.readable_deriver (hhas p hp).1 hd
  have hclosed : ∀ p ∈ P, ∀ q ∈ (info p).references, q ∈ P :=
    fun p hp => (hhas p hp).2.2.2.2.2.1
  -- the export
  cases hexport : exportPaths store P s with
  | error e s' =>
      rcases exportPaths_exportable.of_error hexportable hexport with ⟨p, hp, hne⟩ | hcycle
      · exact absurd (hhas p hp).2.2.2.2.1.symm hne
      · exact absurd hacyclic hcycle
  | ok bytes s' =>
      obtain ⟨sorted, hsorted, rfl⟩ := exportPaths_exportable.of_ok hexportable hexport
      have hmem : ∀ p, p ∈ sorted.reverse ↔ p ∈ P :=
        fun p => List.mem_reverse.trans (hsorted.mem_iff p)
      have hbefore := references_before hsorted hclosed
      have hreadables : Readables store info nar sorted.reverse := by
        intro p hp
        have hp := (hmem p).mp hp
        refine ⟨⟨⟨file p, (hhas p hp).2.2.1, (hhas p hp).2.2.2.1⟩, (hreadable p hp).1, ?_, ?_,
          (hhas p hp).2.2.2.2.2.2⟩, hnamed p hp⟩
        · exact fun q hq => (hreadable q (hclosed p hp q hq)).1
        · exact fun d hd => (hderiver p hp d hd).1
      -- the import
      have hnodup : sorted.reverse.Nodup := List.nodup_reverse.mpr hsorted.nodup
      have hrounds : sorted.reverse.length < (streamOf store info nar sorted.reverse).length + 1 :=
        Nat.lt_succ_of_lt (length_lt_streamOf sorted.reverse)
      obtain ⟨t, himport, -, -, hentered⟩ := importLoop_stream _ (fun _ _ => .ok ()) now
        hreadables (fun _ _ => rfl) hnodup
        (fun front p rest hsplit q hq => hbefore front rest p hsplit q hq)
        (clean_fresh pathInfoCacheSize) hrounds
      refine ⟨_, s', hexport, sorted.reverse, t, himport, hnodup, hmem, ?_, ?_⟩
      · intro front p rest hsplit q hq
        have hp : p ∈ P := by
          rw [← hmem p, hsplit]
          exact List.mem_append_right _ List.mem_cons_self
        exact hbefore front rest p hsplit q ((hrefers p hp q).mp hq)
      · intro p hp
        have hdone := hentered p ((hmem p).mpr hp)
        obtain ⟨j, hj, hsame⟩ := hdone.reads (fun sig hsig => absurd hsig (Finset.notMem_empty sig))
          (fun q hq => hreadable q (hclosed p hp q hq)) (hderiver p hp)
        refine ⟨⟨info p, j, (hhas p hp).1, hj, ?_, ?_, hsame.references_eq, hsame.deriver_eq⟩, ?_⟩
        · exact hsame.narHash_eq.trans (hhas p hp).2.2.2.2.1.symm
        · exact hsame.narSize_eq.trans (hconsistent.narSize p hp _ _ _ (hhas p hp).1 (hhas p hp).2.1
            (hhas p hp).2.2.2.1).symm
        · obtain ⟨f, b, hrestore, -, htree⟩ := hdone.tree
          have hback : NixStore.restorePath (nar p) = (some (file p), .ok (nar p)) :=
            restorePath_eq_ok.mpr ⟨file p, rfl, (hhas p hp).2.2.1, (hhas p hp).2.2.2.1,
              List.prefix_rfl⟩
          rw [hback] at hrestore
          cases hrestore
          exact htree.trans (hhas p hp).2.1.symm

namespace Sample

open LocalStore.Sample (pathA pathB)

/-- An empty file with these references. -/
def emptyInfo (path : StorePath) (narSize : UInt64) (references : Finset StorePath) :
    ValidPathInfo :=
  { LocalStore.Sample.info path references with
    narHash := (measured.hashString .sha256 emptyNar).1, narSize }

/-- A store where these infos have been registered one by one, opened again.
    There is an empty file at both sample paths. -/
def stocked (infos : List ValidPathInfo) : DiskStore where
  db := (infos.foldl (fun s i =>
    final (LocalStore.registerValidPaths measured 1 (.single i)) s) (LocalStore.fresh 10)).db
  pathInfoCache := LruCache.empty 10
  files := (Finmap.singleton nameA (.regular false [])).insert
    ⟨pathB.baseName, validName_pathB⟩ (.regular false [])

/-- A file that is there and empty. -/
def isEmptyFile : Option File → Bool
  | some (.regular false []) => true
  | _ => false

theorem eq_of_isEmptyFile {f : Option File} (h : isEmptyFile f = true) :
    f = some (.regular false []) := by
  unfold isEmptyFile at h
  split at h
  · rfl
  · cases h

/-- These paths are registered with an empty file each. -/
def holdsEmpty (s : DiskStore) (P : Finset StorePath) : Bool :=
  decide (∀ p ∈ P, (isEmptyFile (s.tree p) &&
    match LocalStore.queryPathInfoInternal measured s.db p with
    | .ok (some i) => decide (i.narHash = (measured.hashString .sha256 emptyNar).1 ∧
        (∀ q ∈ i.references, q ∈ P) ∧
        (recordBytes measured emptyNar p i.references i.deriver).length < 2 ^ 64)
    | _ => false) = true)

theorem shippable_of_holdsEmpty {s : DiskStore} {P : Finset StorePath}
    (h : holdsEmpty s P = true) : Shippable measured s P := by
  intro p hp
  have hhas := of_decide_eq_true h p hp
  rw [Bool.and_eq_true] at hhas
  obtain ⟨hfile, hinfo⟩ := hhas
  split at hinfo
  · next i hi =>
      obtain ⟨hhash, hrefs, hsize⟩ := of_decide_eq_true hinfo
      refine ⟨i, _, emptyNar, hi, eq_of_isEmptyFile hfile, ?_, rfl, hhash, hrefs, hsize⟩
      show 0 < narMaxDepth ∧ ([] : Bytes).length < 2 ^ 64
      decide
  · cases hinfo

/-- Whether an export throws. -/
def exportThrows (s : DiskStore) (P : Finset StorePath) : Bool :=
  match exportPaths measured P s with
  | .ok _ _ => false
  | .error _ _ => true

theorem not_roundTrips_of_throws {s : DiskStore} {P : Finset StorePath}
    (h : exportThrows s P = true) : ¬ RoundTrips measured 1 10 s P := by
  rintro ⟨bytes, s', hexport, -⟩
  rw [exportThrows, hexport] at h
  cases h

/-- The sizes that are registered for a path before an export and after the
    import. -/
def narSizes (s : DiskStore) (P : Finset StorePath) (p : StorePath) : Option (UInt64 × UInt64) :=
  match exportPaths measured P s with
  | .error _ _ => none
  | .ok bytes _ =>
      match importPaths measured 1 bytes (fresh 10) with
      | .error _ _ => none
      | .ok _ t =>
          match LocalStore.queryPathInfoInternal measured s.db p,
            LocalStore.queryPathInfoInternal measured t.db p with
          | .ok (some i), .ok (some j) => some (i.narSize, j.narSize)
          | _, _ => none

theorem not_roundTrips_of_narSizes {s : DiskStore} {P : Finset StorePath} {p : StorePath}
    {a b : UInt64} (hp : p ∈ P) (h : narSizes s P p = some (a, b)) (hne : a ≠ b) :
    ¬ RoundTrips measured 1 10 s P := by
  rintro ⟨bytes, s', hexport, paths, t, himport, -, -, -, hsame⟩
  obtain ⟨i, j, hi, hj, -, hsize, -⟩ := (hsame p hp).registered
  rw [narSizes, hexport] at h
  simp only [himport, hi, hj, Option.some.injEq, Prod.mk.injEq] at h
  exact hne (h.1.symm.trans (hsize.symm.trans h.2))

/-- A store with one empty file. -/
def oneFile (narSize : UInt64) : DiskStore := stocked [emptyInfo pathA narSize ∅]

/-- Two empty files, one of which refers to both. -/
def referring : DiskStore := stocked [emptyInfo pathA 112 ∅, emptyInfo pathB 112 {pathA, pathB}]

/-- The size that is registered for each of them. -/
theorem narSize_referring {p : StorePath} (hp : p ∈ ({pathA, pathB} : Finset StorePath))
    {i : ValidPathInfo}
    (h : LocalStore.queryPathInfoInternal measured referring.db p = .ok (some i)) :
    i.narSize = 112 := by
  have hread : ∀ p ∈ ({pathA, pathB} : Finset StorePath),
      (match LocalStore.queryPathInfoInternal measured referring.db p with
      | .ok (some i) => decide (i.narSize = 112)
      | _ => true) = true := by decide +kernel
  have hread' := hread p hp
  rw [h] at hread'
  exact of_decide_eq_true hread'

theorem refers_referring {q : StorePath} (hq : q ∈ ({pathA, pathB} : Finset StorePath)) :
    RegisteredRefers measured referring pathB q := by
  have hread : ∀ q ∈ ({pathA, pathB} : Finset StorePath),
      (match LocalStore.queryPathInfoInternal measured referring.db pathB with
      | .ok (some i) => decide (q ∈ i.references)
      | _ => false) = true := by decide +kernel
  have hq' := hread q hq
  split at hq'
  · next i hi => exact ⟨i, hi, of_decide_eq_true hq'⟩
  · cases hq'

theorem consistent_referring : Consistent measured referring {pathA, pathB} where
  cached := by
    intro p hp v hv
    rw [show referring.pathInfoCache.find p = none from rfl] at hv
    cases hv
  acyclic := by
    -- the edges are a loop and one from the second path to the first
    have hrank : ∀ p ∈ ({pathA, pathB} : Finset StorePath),
        ∀ q ∈ ({pathA, pathB} : Finset StorePath),
        (match LocalStore.queryPathInfoInternal measured referring.db p with
        | .ok (some i) => decide (q ∈ i.references → p ≠ q →
            (if q = pathB then 1 else 0) < if p = pathB then 1 else 0)
        | _ => true) = true := by decide +kernel
    refine Acyclic.of_rank (fun p => if p = pathB then 1 else 0) ?_
    rintro p q ⟨⟨i, hi, href⟩, hp, hq⟩ hne
    have hless := hrank p hp q hq
    rw [hi] at hless
    exact of_decide_eq_true hless href hne
  narSize := by
    intro p hp i f b hi hf hb
    have hempty : ∀ p ∈ ({pathA, pathB} : Finset StorePath),
        isEmptyFile (referring.tree p) = true := by decide +kernel
    rw [eq_of_isEmptyFile (hempty p hp)] at hf
    cases hf
    have hnar : dumpPath NarNode.plain defaultPathFilter (.regular false []) = .ok emptyNar := rfl
    rw [hnar] at hb
    cases hb
    rw [narSize_referring hp hi]
    decide +kernel

/-- Two empty files that refer to each other. -/
def twoFiles : DiskStore :=
  stocked [emptyInfo pathA 112 ∅, emptyInfo pathB 112 {pathA}, emptyInfo pathA 112 {pathB}]

/-- The file was registered by somebody else after the store was asked for it. -/
def askedBefore : DiskStore :=
  { oneFile 112 with pathInfoCache := (LruCache.empty 10).upsert pathA none }

end Sample

/-- Two files, one with a reference to the other and to itself. -/
theorem importPaths_exportPaths_twoFiles :
    (∀ q ∈ ({LocalStore.Sample.pathA, LocalStore.Sample.pathB} : Finset StorePath),
      RegisteredRefers Sample.measured Sample.referring LocalStore.Sample.pathB q) ∧
    Shippable Sample.measured Sample.referring {LocalStore.Sample.pathA, LocalStore.Sample.pathB} ∧
      Consistent Sample.measured Sample.referring
        {LocalStore.Sample.pathA, LocalStore.Sample.pathB} ∧
      RoundTrips Sample.measured 1 10 Sample.referring
        {LocalStore.Sample.pathA, LocalStore.Sample.pathB} := by
  have hship : Shippable Sample.measured Sample.referring
      {LocalStore.Sample.pathA, LocalStore.Sample.pathB} :=
    Sample.shippable_of_holdsEmpty (by decide +kernel)
  exact ⟨fun _ => Sample.refers_referring, hship, Sample.consistent_referring,
    importPaths_exportPaths 1 10 _ _ hship Sample.consistent_referring⟩

/-- A size that was not registered is filled in, paths that refer to each other
    are not exported, and neither is a path that was missing when the store was
    asked for it. -/
theorem importPaths_exportPaths_differ :
    (Shippable Sample.measured (Sample.oneFile 0) {LocalStore.Sample.pathA} ∧
      ¬ RoundTrips Sample.measured 1 10 (Sample.oneFile 0) {LocalStore.Sample.pathA}) ∧
    (Shippable Sample.measured Sample.twoFiles {LocalStore.Sample.pathA, LocalStore.Sample.pathB} ∧
      ¬ RoundTrips Sample.measured 1 10 Sample.twoFiles
        {LocalStore.Sample.pathA, LocalStore.Sample.pathB}) ∧
    (Shippable Sample.measured Sample.askedBefore {LocalStore.Sample.pathA} ∧
      ¬ RoundTrips Sample.measured 1 10 Sample.askedBefore {LocalStore.Sample.pathA}) := by
  refine ⟨⟨?_, ?_⟩, ⟨?_, ?_⟩, ⟨?_, ?_⟩⟩
  · exact Sample.shippable_of_holdsEmpty (by decide +kernel)
  · have hsizes : Sample.narSizes (Sample.oneFile 0) {LocalStore.Sample.pathA}
        LocalStore.Sample.pathA = some (0, 112) := by decide +kernel
    exact Sample.not_roundTrips_of_narSizes (Finset.mem_singleton_self _) hsizes (by decide)
  · exact Sample.shippable_of_holdsEmpty (by decide +kernel)
  · exact Sample.not_roundTrips_of_throws (by decide +kernel)
  · exact Sample.shippable_of_holdsEmpty (by decide +kernel)
  · exact Sample.not_roundTrips_of_throws (by decide +kernel)

end DiskStore

end NixStore
