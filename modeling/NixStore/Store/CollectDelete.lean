/-
  NixStore.Store.CollectDelete

  The loop of `maybeDeleteReferrersClosure` that deletes what its search has
  visited.

  The paths are sorted, so a path comes after all the visited ones that refer
  to it, and a search that is not given up has visited all that refer to it.
  When it is the path's turn they have been deleted: `invalidatePathChecked` is
  not refused.
-/

import NixStore.Store.CollectSearch

namespace NixStore

open Effect OrderedSet Wire Relation

-- ============================================================================
-- Databases that have lost paths
-- ============================================================================

/-- What is left of a database without some paths. -/
structure Dropped (store : StoreDirConfig) (db₀ : Db) (gone : Finset StorePath) (db : Db) : Prop where
  row : ∀ t, db.queryPathInfo t =
    if ∃ p ∈ gone, t = store.printStorePath p then none else db₀.queryPathInfo t
  refers : ∀ t u, db.Refers t u ↔ db₀.Refers t u ∧
    ∀ p ∈ gone, t ≠ store.printStorePath p ∧ u ≠ store.printStorePath p
  derivers : ∀ t u, t ∈ db.queryValidDerivers u ↔ t ∈ db₀.queryValidDerivers u ∧
    ∀ p ∈ gone, t ≠ store.printStorePath p

namespace Dropped

variable {store : StoreDirConfig} {db₀ db db' : Db} {gone : Finset StorePath}

theorem none (store : StoreDirConfig) (db : Db) : Dropped store db ∅ db where
  row := fun t => (if_neg (by simp)).symm
  refers := fun t u => ⟨fun h => ⟨h, by simp⟩, fun h => h.1⟩
  derivers := fun t u => ⟨fun h => ⟨h, by simp⟩, fun h => h.1⟩

theorem insert (h : Dropped store db₀ gone db) {path : StorePath}
    (hdb : db.invalidatePath (store.printStorePath path) = .ok db') :
    Dropped store db₀ (insert path gone) db' where
  row := by
    intro t
    rw [Db.queryPathInfo_invalidate hdb, h.row]
    simp only [Finset.exists_mem_insert]
    by_cases ht : t = store.printStorePath path
    · rw [if_pos ht, if_pos (.inl ht)]
    · rw [if_neg ht]
      simp only [ht, false_or]
  refers := by
    intro t u
    rw [Db.refers_invalidate hdb, h.refers, Finset.forall_mem_insert, and_assoc]
    exact and_congr_right' and_comm
  derivers := by
    intro t u
    rw [Db.mem_queryValidDerivers_invalidate hdb, h.derivers, Finset.forall_mem_insert, and_assoc]
    exact and_congr_right' and_comm

theorem valid (h : Dropped store db₀ gone db) {t : Bytes} :
    db.Valid t ↔ db₀.Valid t ∧ ∀ p ∈ gone, t ≠ store.printStorePath p := by
  rw [← Db.isSome_queryPathInfo, h.row, ← Db.isSome_queryPathInfo]
  by_cases ht : ∃ p ∈ gone, t = store.printStorePath p
  · rw [if_pos ht]
    obtain ⟨p, hp, heq⟩ := ht
    exact iff_of_false nofun fun hall => hall.2 p hp heq
  · rw [if_neg ht]
    exact (and_iff_left fun p hp heq => ht ⟨p, hp, heq⟩).symm

theorem valid_path (h : Dropped store db₀ gone db) {p : StorePath} :
    db.Valid (store.printStorePath p) ↔ db₀.Valid (store.printStorePath p) ∧ p ∉ gone := by
  rw [h.valid]
  refine and_congr_right' ⟨fun hall hp => hall p hp rfl, fun hp q hq heq => hp ?_⟩
  rwa [store.printStorePath_inj heq]

theorem pathRefers (h : Dropped store db₀ gone db) {p q : StorePath} :
    LocalStore.PathRefers store db p q ↔
      LocalStore.PathRefers store db₀ p q ∧ p ∉ gone ∧ q ∉ gone := by
  unfold LocalStore.PathRefers
  rw [h.refers]
  refine and_congr_right' ⟨fun hall => ⟨fun hp => (hall p hp).1 rfl, fun hq => (hall q hq).2 rfl⟩, ?_⟩
  rintro ⟨hp, hq⟩ r hr
  refine ⟨fun heq => hp ?_, fun heq => hq ?_⟩
  · rwa [store.printStorePath_inj heq]
  · rwa [store.printStorePath_inj heq]

theorem fewer (h : Dropped store db₀ gone db) : Collecting.Fewer store db₀ db where
  valid := fun _ ht => (h.valid.mp ht).1
  refers := fun _ _ href => (h.pathRefers.mp href).1
  derivers := fun _ _ hder => ((h.derivers _ _).mp hder).1

theorem printed (h : Dropped store db₀ gone db) (hprinted : LocalStore.PrintedRows store db₀) :
    LocalStore.PrintedRows store db := fun t ht => hprinted t (h.valid.mp ht).1

theorem readable (h : Dropped store db₀ gone db) (hread : LocalStore.ReadableDb store db₀) :
    LocalStore.ReadableDb store db := by
  intro row hrow
  have hquery := Db.queryPathInfo_eq_some.mpr ⟨hrow, rfl⟩
  rw [h.row] at hquery
  split at hquery
  · cases hquery
  · exact hread row (Db.queryPathInfo_eq_some.mp hquery).1

end Dropped

namespace Collecting

variable {store : StoreDirConfig} {env : Surroundings} {options : GCOptions}
  {settings : GCSettings}

-- ============================================================================
-- What has been deleted
-- ============================================================================

/-- What is at a name in the store directory. -/
def entry (files : Finmap fun _ : FileName => File) (name : Bytes) : Option File :=
  if h : invalidName name then none else files.lookup ⟨name, h⟩

/-- How far deletion has got: the paths that are not valid any more, and the
    names that have been reported, deleted and counted. -/
structure Progress where
  rows : Finset StorePath
  reported : Finset Bytes
  deleted : Finset Bytes
  counted : Finset Bytes

/-- The names of paths. -/
def baseNames (paths : Finset StorePath) : Finset Bytes := paths.image StorePath.baseName

theorem mem_baseNames {paths : Finset StorePath} {p : StorePath} :
    p.baseName ∈ baseNames paths ↔ p ∈ paths := by
  unfold baseNames
  rw [Finset.mem_image]
  refine ⟨fun ⟨q, hq, heq⟩ => ?_, fun hp => ⟨p, hp, rfl⟩⟩
  rwa [← StorePath.ext' heq]

variable (store env) in
/-- A state of a collection that started to delete in a given state, with a
    property of the bytes that have been counted. -/
structure Pruned (T : Finset Bytes → Prop) (derivers : Bool) (tally : Finset Bytes → UInt64 → Prop)
    (base : Collecting) (g : Progress) (s : Collecting) : Prop where
  dropped : Dropped store base.db g.rows s.db
  reported : s.results.paths = g.reported.image fun name => store.text ++ ascii "/" ++ name
  entries : ∀ name, entry s.files name =
    if name ∈ g.deleted then none else entry base.files name
  counted : tally g.counted s.results.bytesFreed
  coherent : LocalStore.CoherentOver store derivers s.db s.toLocalStore
  complete : ∀ p R, s.referrersCache p = some R →
    ∀ q, LocalStore.PathRefers store s.db q p → q ∈ R
  sound : ∀ p R, s.referrersCache p = some R →
    ∀ q ∈ R, LocalStore.PathRefers store base.db q p
  temp : T s.tempRoots
  roots : s.roots = base.roots

section Steps

variable {T : Finset Bytes → Prop} {derivers : Bool} {tally : Finset Bytes → UInt64 → Prop}
  {base : Collecting} {g : Progress} {s t : Collecting}

/-- A search has started. -/
theorem Pruned.searching (h : Pruned store T derivers tally base g s) :
    Searching store T derivers base.db s s.alive ∅ { s with passed := ∅ } where
  untouched := rfl
  coherent := h.coherent
  complete := h.complete
  sound := h.sound
  temp := h.temp
  alive_eq := rfl
  passed_eq := rfl
  timely := fun _ hp => absurd hp (Finset.notMem_empty _)

/-- A search does not change what has been deleted. -/
theorem Pruned.searched {alive passed : Finset StorePath}
    (h : Pruned store T derivers tally base g s)
    (ht : Searching store T derivers base.db s alive passed t) :
    Pruned store T derivers tally base g t := by
  have hdb : t.db = s.db := congrArg (fun u => u.1.1) ht.untouched
  have hfiles : t.files = s.files := congrArg (fun u => u.1.2.1) ht.untouched
  have hroots : t.roots = s.roots := congrArg (fun u => u.2.1) ht.untouched
  have hresults : t.results = s.results := congrArg (fun u => u.2.2.2.1) ht.untouched
  exact
    { dropped := hdb ▸ h.dropped
      reported := hresults ▸ h.reported
      entries := hfiles ▸ h.entries
      counted := hresults ▸ h.counted
      coherent := hdb ▸ ht.coherent
      complete := hdb ▸ ht.complete
      sound := ht.sound
      temp := ht.temp
      roots := hroots.trans h.roots }

variable (store env) in
/-- A state in the loop behind a search: what is dead and alive, and whose turn
    has not come. -/
structure Deleting (T : Finset Bytes → Prop) (derivers : Bool) (tally : Finset Bytes → UInt64 → Prop)
    (base : Collecting) (g : Progress) (dead alive : Finset StorePath) (left : StorePath → Prop)
    (s : Collecting) : Prop extends Pruned store T derivers tally base g s where
  dead_eq : s.dead = dead
  alive_eq : s.alive = alive
  timely : ∀ p, left p → p ∈ s.passed ∧ p.hashPart ∉ s.tempRoots

variable {dead alive : Finset StorePath} {left : StorePath → Prop}
  (henv : OnlyTimelyRoots env T) (hprinted : LocalStore.PrintedRows store base.db)

include henv in
theorem interfere_deleting {E : GCThrow → Collecting → Prop} :
    Spec (Deleting store T derivers tally base g dead alive left) (interfere env)
      (fun _ => Deleting store T derivers tally base g dead alive left) E := by
  intro s hs
  have hdb : (env.others s).db = s.db := congrArg Prod.fst (henv.store s)
  have hfiles : (env.others s).files = s.files := congrArg (fun u => u.2.1) (henv.store s)
  refine ⟨⟨?_, hs.reported, ?_, hs.counted, ⟨rfl, ?_⟩, ?_, hs.sound, henv.keeps s hs.temp,
    hs.roots⟩, hs.dead_eq, hs.alive_eq, fun p hp => ?_⟩
  · exact hdb ▸ hs.dropped
  · exact hfiles ▸ hs.entries
  · exact hdb ▸ hs.coherent.told
  · exact hdb ▸ hs.complete
  · obtain ⟨hpassed, hroot⟩ := hs.timely p hp
    exact ⟨hpassed, fun hmem => hroot (henv.timely s p hpassed hmem)⟩

/-- An exception that comes from the database. -/
def Fails (store : StoreDirConfig) (db : Db) (e : GCThrow) : Prop :=
  ∃ e', e = .error e' ∧ e'.passes = true ∧
    (¬ LocalStore.ReadableDb store db ∨ ¬ Acyclic (LocalStore.PathRefers store db))

theorem Fails.not_pathInUse {db : Db} {e : GCThrow} (h : Fails store db e) :
    isPathInUse e = false := by
  obtain ⟨e', rfl, hpasses, -⟩ := h
  cases e' with
  | pathInUse msg => cases hpasses
  | _ => rfl

include henv hprinted in
/-- A path to which nothing else refers any more is invalidated. -/
theorem invalidate_spec {path : StorePath}
    (hfree : ∀ q, q ≠ path → LocalStore.PathRefers store base.db q path → q ∈ g.rows) :
    Spec (Deleting store T derivers tally base g dead alive left) (invalidate store env path)
      (fun _ => Deleting store T derivers tally base { g with rows := insert path g.rows } dead
        alive left)
      (fun e _ => Fails store base.db e) := by
  refine Spec.seq (interfere_deleting henv) fun _ => Spec.look fun s hs => ?_
  refine Spec.seq (Q := fun _ => Deleting store T derivers tally base
    { g with rows := insert path g.rows } dead alive left) ?_ fun _ => Spec.change fun t ht =>
      ⟨⟨ht.dropped, ht.reported, ht.entries, ht.counted, ht.coherent, ht.complete, ht.sound, ht.temp,
        ht.roots⟩, ht.dead_eq, ht.alive_eq, ht.timely⟩
  refine (callStore_run _ s).weaken (fun _ h => h) ?_ ?_
  · rintro _ _ ⟨t, hrun, rfl⟩
    obtain ⟨db', hdb', ht⟩ :=
      (LocalStore.CoherentOver.invalidatePathChecked (hs.dropped.printed hprinted) path).of_ok
        hs.coherent hrun
    obtain rfl : t.db = db' := ht.db_eq
    refine ⟨⟨hs.dropped.insert hdb', hs.reported, hs.entries, hs.counted, ht, ?_, hs.sound, hs.temp,
      hs.roots⟩, hs.dead_eq, hs.alive_eq, hs.timely⟩
    exact fun p R hp q hq => hs.complete p R hp q ((Db.refers_invalidate hdb' _ _).mp hq).1
  · rintro _ _ ⟨e', t, rfl, hrun, rfl⟩
    have herr := (LocalStore.CoherentOver.invalidatePathChecked (hs.dropped.printed hprinted)
      path).of_error hs.coherent hrun
    rcases herr.2 with ⟨q, hne, hq⟩ | ⟨hpasses, hread⟩
    · obtain ⟨hq, hnot, -⟩ := hs.dropped.pathRefers.mp hq
      exact absurd (hfree q hne hq) hnot
    · exact ⟨e', rfl, hpasses, .inl fun h => hread (hs.dropped.readable h)⟩

theorem entry_erase (files : Finmap fun _ : FileName => File) (name n : Bytes) :
    entry (if h : invalidName name then files else files.erase ⟨name, h⟩) n =
      if n = name then none else entry files n := by
  unfold entry
  by_cases hname : invalidName name
  · rw [dif_pos hname]
    by_cases hn : n = name
    · rw [if_pos hn, dif_pos (hn ▸ hname)]
    · rw [if_neg hn]
  · rw [dif_neg hname]
    by_cases hn : n = name
    · subst hn
      rw [if_pos rfl, dif_neg hname, Finmap.lookup_erase]
    · rw [if_neg hn]
      by_cases hn' : invalidName n
      · rw [dif_pos hn', dif_pos hn']
      · rw [dif_neg hn', dif_neg hn', Finmap.lookup_erase_ne]
        exact fun heq => hn (Subtype.ext_iff.mp heq)

include henv in
/-- An entry that is deleted. -/
theorem deleteFromStore_spec {name : Bytes} (hlocked : lockedTempDir env name = false)
    (htally : ∀ b, tally g.counted b → tally (insert name g.counted) (b + env.freed name) ∧
      b + env.freed name ≤ options.maxFreed) {E : GCThrow → Collecting → Prop} :
    Spec (Deleting store T derivers tally base g dead alive left)
      (deleteFromStore store env options name)
      (fun _ => Deleting store T derivers tally base
        ⟨g.rows, insert name g.reported, insert name g.deleted, insert name g.counted⟩ dead alive
        left) E := by
  unfold deleteFromStore
  rw [if_neg (by rw [hlocked]; exact Bool.false_ne_true)]
  refine Spec.seq (Q := fun _ => Deleting store T derivers tally base
    { g with reported := insert name g.reported } dead alive left) ?_ fun _ => ?_
  · refine Spec.change fun s hs => ⟨⟨hs.dropped, ?_, hs.entries, hs.counted, hs.coherent, hs.complete,
      hs.sound, hs.temp, hs.roots⟩, hs.dead_eq, hs.alive_eq, hs.timely⟩
    rw [Finset.image_insert, ← hs.reported]
  refine Spec.seq (Q := fun _ => Deleting store T derivers tally base
    { g with reported := insert name g.reported, deleted := insert name g.deleted } dead alive
    left) ?_ fun _ => ?_
  · refine Spec.seq (interfere_deleting henv) fun _ => Spec.change fun s hs => ⟨⟨hs.dropped,
      hs.reported, fun n => ?_, hs.counted, hs.coherent, hs.complete, hs.sound, hs.temp, hs.roots⟩,
      hs.dead_eq, hs.alive_eq, hs.timely⟩
    dsimp only
    rw [entry_erase, hs.entries]
    by_cases hn : n = name
    · rw [if_pos hn, if_pos (Finset.mem_insert.mpr (.inl hn))]
    · rw [if_neg hn]
      simp only [Finset.mem_insert, hn, false_or]
  -- the limit is not reached
  refine Spec.seq (Q := fun _ s => Deleting store T derivers tally base
    ⟨g.rows, insert name g.reported, insert name g.deleted, insert name g.counted⟩ dead alive left s ∧
      s.results.bytesFreed ≤ options.maxFreed) ?_ fun _ => Spec.look fun s hs => ?_
  · refine Spec.change fun s hs => ?_
    obtain ⟨hcounted, hle⟩ := htally _ hs.counted
    exact ⟨⟨⟨hs.dropped, hs.reported, hs.entries, hcounted, hs.coherent, hs.complete, hs.sound,
      hs.temp, hs.roots⟩, hs.dead_eq, hs.alive_eq, hs.timely⟩, hle⟩
  · rw [if_neg (UInt64.not_lt.mpr hs.2)]
    exact Spec.ret fun t ht => ht ▸ hs.1

/-- The name of a store path does not start with `tmp-`. -/
theorem lockedTempDir_baseName (env : Surroundings) (path : StorePath) :
    lockedTempDir env path.baseName = false := by
  unfold lockedTempDir
  rw [Bool.and_eq_false_iff]
  refine .inl (Bool.eq_false_iff.mpr fun hstarts => ?_)
  obtain ⟨rest, hrest⟩ := List.isPrefixOf_iff_prefix.mp hstarts
  have hchars := (StorePath.checkBaseName_eq_ok.mp path.valid).2.1
  have hdash : (0x2d : UInt8) ∈ path.baseName.take hashLen := by
    rw [← hrest, List.take_append]
    exact List.mem_append_left _ (by decide)
  have := hchars _ hdash
  revert this
  decide

theorem cached_of_forgotten {cache : StorePath → Option (Finset StorePath)} {path p : StorePath}
    {R : Finset StorePath} (h : Function.update cache path none p = some R) : cache p = some R := by
  by_cases heq : p = path
  · rw [heq, Function.update_self] at h
    cases h
  · rwa [Function.update_of_ne heq] at h

include henv hprinted in
/-- What is not in use any more is deleted. -/
theorem deleteUnused_spec {path : StorePath}
    (hfree : ∀ q, q ≠ path → LocalStore.PathRefers store base.db q path → q ∈ g.rows)
    (htally : ∀ b, tally g.counted b →
      tally (insert path.baseName g.counted) (b + env.freed path.baseName) ∧
        b + env.freed path.baseName ≤ options.maxFreed) :
    Spec (Deleting store T derivers tally base g dead alive left)
      (deleteUnused store env options path)
      (fun _ => Deleting store T derivers tally base
        ⟨insert path g.rows, insert path.baseName g.reported, insert path.baseName g.deleted,
          insert path.baseName g.counted⟩ dead alive left)
      (fun e _ => Fails store base.db e) := by
  refine orCatch_spec (E := fun e _ => Fails store base.db e) ?_ ?_ fun _ _ h _ => h
  · refine Spec.seq (invalidate_spec henv hprinted hfree) fun _ =>
      Spec.seq (deleteFromStore_spec (g := { g with rows := insert path g.rows }) henv
        (lockedTempDir_baseName env path) htally) fun _ => ?_
    refine Spec.change fun s hs => ⟨⟨hs.dropped, hs.reported, hs.entries, hs.counted, hs.coherent,
      fun p R hp => hs.complete p R (cached_of_forgotten hp),
      fun p R hp => hs.sound p R (cached_of_forgotten hp), hs.temp, hs.roots⟩, hs.dead_eq,
      hs.alive_eq, hs.timely⟩
  · intro e s he hcaught
    rw [he.not_pathInUse] at hcaught
    cases hcaught

/-- Deletion has got as far as these paths and these other names. -/
def Progress.upTo (others : Finset Bytes) (paths : Finset StorePath) : Progress :=
  ⟨paths, others ∪ baseNames paths, others ∪ baseNames paths, others ∪ baseNames paths⟩

theorem Progress.upTo_insert (others : Finset Bytes) (path : StorePath) (paths : Finset StorePath) :
    Progress.upTo others (insert path paths) =
      ⟨insert path paths, insert path.baseName (others ∪ baseNames paths),
        insert path.baseName (others ∪ baseNames paths),
        insert path.baseName (others ∪ baseNames paths)⟩ := by
  unfold Progress.upTo baseNames
  rw [Finset.image_insert, Finset.union_insert]

/-- What is gone when some paths are dead. -/
def gone (options : GCOptions) (dead : Finset StorePath) : Finset StorePath :=
  if options.shouldDelete then dead else ∅

variable {others : Finset Bytes}

include henv hprinted in
/-- The turn of one path. -/
theorem deleteVisited_spec {path : StorePath}
    (hfree : options.shouldDelete = true → path ∉ dead → ∀ q, q ≠ path →
      LocalStore.PathRefers store base.db q path → q ∈ dead)
    (htally : ∀ b, path ∉ dead → tally (others ∪ baseNames dead) b →
      tally (insert path.baseName (others ∪ baseNames dead)) (b + env.freed path.baseName) ∧
        b + env.freed path.baseName ≤ options.maxFreed)
    (hleft : path ∉ dead → left path) :
    Spec (Deleting store T derivers tally base (.upTo others (gone options dead)) dead alive
        left)
      (deleteVisited store env options settings path)
      (fun _ => Deleting store T derivers tally base
        (.upTo others (gone options (insert path dead))) (insert path dead) alive
        (fun p => left p ∧ p ≠ path))
      (fun e _ => Fails store base.db e) := by
  refine Spec.seq (interfere_deleting henv) fun _ => Spec.look fun t ht => Spec.cond ?_ fun hnot => ?_
  · intro hdead
    rw [ht.dead_eq] at hdead
    rw [Finset.insert_eq_of_mem hdead]
    refine Spec.ret ?_
    rintro _ rfl
    exact ⟨ht.toPruned, ht.dead_eq, ht.alive_eq, fun p hp => ht.timely p hp.1⟩
  rw [ht.dead_eq] at hnot
  refine Spec.seq (Q := fun _ => Deleting store T derivers tally base
    (.upTo others (gone options dead)) (insert path dead) alive left) (Spec.change ?_)
    fun _ => ?_
  · rintro s rfl
    exact ⟨⟨ht.dropped, ht.reported, ht.entries, ht.counted, ht.coherent, ht.complete, ht.sound,
      ht.temp, ht.roots⟩, congrArg (insert path) ht.dead_eq, ht.alive_eq, ht.timely⟩
  unfold gone
  refine Spec.cond (fun hdelete => ?_) fun hkeep => Spec.ret fun s hs => ?_
  · rw [if_pos hdelete, if_pos hdelete]
    refine Spec.seq (Q := fun _ s => Deleting store T derivers tally base (.upTo others dead)
      (insert path dead) alive (fun p => left p ∧ p ≠ path) s ∧ path.hashPart ∉ s.tempRoots)
      (Spec.change fun s hs => ⟨⟨⟨hs.dropped, hs.reported, hs.entries, hs.counted, hs.coherent,
        hs.complete, hs.sound, hs.temp, hs.roots⟩, hs.dead_eq, hs.alive_eq, fun p hp => ?_⟩,
        (hs.timely path (hleft hnot)).2⟩) fun _ => ?_
    · obtain ⟨hpassed, hroot⟩ := hs.timely p hp.1
      exact ⟨Finset.mem_erase.mpr ⟨hp.2, hpassed⟩, hroot⟩
    -- the second look finds what the first one has found
    refine Spec.seq (Q := fun isRoot s => isRoot = false ∧ Deleting store T derivers tally base
      (.upTo others dead) (insert path dead) alive (fun p => left p ∧ p ≠ path) s)
      (Spec.look fun s hs => ?_) fun isRoot => ?_
    · rw [if_neg hs.2]
      refine Spec.seq (Q := fun _ => Deleting store T derivers tally base (.upTo others dead)
        (insert path dead) alive (fun p => left p ∧ p ≠ path)) (Spec.change ?_)
        fun _ => Spec.ret fun s hs => ⟨rfl, hs⟩
      rintro s rfl
      exact ⟨⟨hs.1.dropped, hs.1.reported, hs.1.entries, hs.1.counted, hs.1.coherent, hs.1.complete,
        hs.1.sound, hs.1.temp, hs.1.roots⟩, hs.1.dead_eq, hs.1.alive_eq, hs.1.timely⟩
    · intro s hs
      obtain ⟨rfl, hs⟩ := hs
      rw [if_neg Bool.false_ne_true]
      refine atEnd_spec ((deleteUnused_spec henv hprinted (hfree hdelete hnot)
        fun b => htally b hnot).weaken (fun _ h => h) (fun _ u hu => ?_) fun _ _ h => h) s hs
      rw [Progress.upTo_insert]
      exact ⟨⟨hu.dropped, hu.reported, hu.entries, hu.counted, hu.coherent, hu.complete, hu.sound,
        hu.temp, hu.roots⟩, hu.dead_eq, hu.alive_eq, hu.timely⟩
  · rw [if_neg hkeep] at hs ⊢
    exact ⟨hs.toPruned, hs.dead_eq, hs.alive_eq, fun p hp => hs.timely p hp.1⟩

variable (env options) in
/-- What has been counted may grow by any further path without reaching the
    limit. -/
def Tallies (others : Finset Bytes) (tally : Finset Bytes → UInt64 → Prop) : Prop :=
  ∀ dead b (path : StorePath), path ∉ dead → tally (others ∪ baseNames dead) b →
    tally (insert path.baseName (others ∪ baseNames dead)) (b + env.freed path.baseName) ∧
      b + env.freed path.baseName ≤ options.maxFreed

include henv hprinted in
/-- The loop over the sorted paths. -/
theorem deleteSorted_spec {s₀ : Collecting} {visited : Finset StorePath} {sorted : List StorePath}
    (htally : Tallies env options others tally)
    (hpruned : Dropped store base.db (gone options s₀.dead) s₀.db)
    (hsorted : TopoSort.Sorted visited (LocalStore.PathRefers store s₀.db) sorted)
    (hclosed : ∀ p ∈ visited, p ∉ s₀.dead → s₀.db.Valid (store.printStorePath p) →
      ∀ q, LocalStore.PathRefers store s₀.db q p → q ∈ visited) :
    Spec (Deleting store T derivers tally base (.upTo others (gone options s₀.dead)) s₀.dead alive
        (fun p => p ∈ visited ∧ p ∉ s₀.dead))
      (sorted.forM (deleteVisited store env options settings))
      (fun _ t => ∃ left, Deleting store T derivers tally base
        (.upTo others (gone options (s₀.dead ∪ visited))) (s₀.dead ∪ visited) alive left t)
      (fun e _ => Fails store base.db e) := by
  refine (Spec.loop (I := fun front => Deleting store T derivers tally base
    (.upTo others (gone options (s₀.dead ∪ front.toFinset))) (s₀.dead ∪ front.toFinset) alive
    (fun p => (p ∈ visited ∧ p ∉ s₀.dead) ∧ p ∉ front)) sorted ?_).weaken ?_ ?_ fun _ _ h => h
  · intro front path rest hsplit
    have hpath : path ∈ visited :=
      (hsorted.mem_iff path).mp (hsplit ▸ List.mem_append_right _ List.mem_cons_self)
    have hnew : path ∉ front := by
      have hnodup := hsorted.nodup
      rw [hsplit, List.nodup_append] at hnodup
      exact fun hmem => hnodup.2.2 path hmem path List.mem_cons_self rfl
    refine (deleteVisited_spec henv hprinted ?_ (fun b hnot => htally _ b path hnot) ?_).weaken
      (fun _ h => h) (fun _ t ht => ?_) fun _ _ h => h
    · -- all that refers to the path has had its turn
      intro hdelete hnot q hne href
      unfold gone at hpruned
      rw [if_pos hdelete] at hpruned
      rw [Finset.mem_union, not_or] at hnot
      by_cases hq : q ∈ s₀.dead
      · exact Finset.mem_union_left _ hq
      · have href' := hpruned.pathRefers.mpr ⟨href, hq, hnot.1⟩
        have hqv := hclosed path hpath hnot.1 href'.valid.2 q href'
        exact Finset.mem_union_right _ (List.mem_toFinset.mpr
          (hsorted.mem_front hsplit hqv href' hne))
    · rw [Finset.mem_union, not_or]
      exact fun hnot => ⟨⟨hpath, hnot.1⟩, hnew⟩
    · have hfront : insert path (s₀.dead ∪ front.toFinset) = s₀.dead ∪ (front ++ [path]).toFinset := by
        ext q
        simp only [Finset.mem_insert, Finset.mem_union, List.mem_toFinset, List.mem_append,
          List.mem_singleton]
        tauto
      rw [hfront] at ht
      refine ⟨ht.toPruned, ht.dead_eq, ht.alive_eq, fun p hp => ht.timely p ⟨⟨hp.1, ?_⟩, ?_⟩⟩
      · exact fun hmem => hp.2 (List.mem_append_left _ hmem)
      · rintro rfl
        exact hp.2 (List.mem_append_right _ (List.mem_singleton.mpr rfl))
  · intro t ht
    simp only [List.toFinset_nil, Finset.union_empty, List.not_mem_nil, not_false_eq_true, and_true]
    exact ht
  · intro _ t ht
    have hall : sorted.toFinset = visited := by
      ext q
      rw [List.mem_toFinset, hsorted.mem_iff]
    rw [hall] at ht
    exact ⟨_, ht⟩

theorem Broken.fails {s : Collecting} {e : GCThrow} (h : Broken store s.db e)
    (hs : Pruned store T derivers tally base g s) : Fails store base.db e := by
  obtain ⟨e', rfl, hpasses, hread⟩ := h
  exact ⟨e', rfl, hpasses, .inl fun hbase => hread (hs.dropped.readable hbase)⟩

theorem fails_of_cycle {s : Collecting} {paths : Finset StorePath} {c : Cycle StorePath}
    (h : TopoSort.OnCycle paths (LocalStore.PathRefers store s.db) c)
    (hs : Pruned store T derivers tally base g s) :
    Fails store base.db (.error (LocalStore.cycleError store c)) := by
  refine ⟨_, rfl, rfl, .inr fun hacyclic => hacyclic c.path ?_⟩
  refine TransGen.mono ?_ _ _ h
  rintro a b ⟨⟨href, -, -⟩, hne⟩
  exact ⟨(hs.dropped.pathRefers.mp href).1, hne⟩

variable (store env options settings) in
/-- What a state is like before and after each search and the loop behind it. -/
abbrev Resting (T : Finset Bytes → Prop) (derivers : Bool) (tally : Finset Bytes → UInt64 → Prop)
    (base : Collecting) (others : Finset Bytes) (s : Collecting) : Prop :=
  Pruned store T derivers tally base (.upTo others (gone options s.dead)) s

variable (store options settings) in
/-- What comes of a search and the loop behind it: either it is given up, or
    all that has been visited is dead. -/
def Outcome (T : Finset Bytes → Prop) (db₀ : Db) (start : StorePath) (s t : Collecting) : Prop :=
  (t.dead = s.dead ∧ ∃ p, ReflTransGen (Pulls store options settings db₀) start p ∧
      GivenUp store options settings T s start p s.alive t.alive ∧
      (p = start ∨ start ∈ s.dead ∨
        start ∉ s.roots ∧ ∃ tempRoots, T tempRoots ∧ start.hashPart ∉ tempRoots)) ∨
    t.alive = s.alive ∧ ∃ visited passed, t.dead = s.dead ∪ visited ∧
      Found store options settings db₀ s start s.alive passed visited ∧
      ∀ p ∈ passed, ∃ tempRoots, T tempRoots ∧ p.hashPart ∉ tempRoots

include henv hprinted in
/-- What `maybeDeleteReferrersClosure` does. -/
theorem maybeDeleteReferrersClosure_spec (start : StorePath)
    (hderivers : options.includeDerivers settings = true → derivers = true)
    (htally : Tallies env options others tally)
    (hs : Resting store options T derivers tally base others s) :
    Run s (maybeDeleteReferrersClosure store env options settings start)
      (fun _ t => Resting store options T derivers tally base others t ∧
        Outcome store options settings T base.db start s t)
      (fun e _ => Fails store base.db e) := by
  refine atEnd_spec (Spec.seq (Q := fun _ => Searching store T derivers base.db s s.alive ∅)
    (Spec.change ?_) fun _ => ?_)
  · rintro _ rfl
    exact hs.searching
  have hprinted' := hs.dropped.printed hprinted
  refine Spec.seq ((search_spec henv hprinted' hs.dropped.fewer hderivers start).weaken
    (fun _ h => h) (fun _ _ h => h) ?_) fun r => ?_
  · rintro e t ⟨_, _, -, hbroken⟩
    exact hbroken.fails hs
  -- a root was met: nothing is deleted
  cases r with
  | none =>
      refine Spec.ret fun t ht => ?_
      rcases ht with ⟨-, p, alive', passed', ht, hreach, hgiven, hfirst⟩ | ⟨visited, passed', hr, -⟩
      · have hdead : t.dead = s.dead := congrArg (fun u => u.2.2.1) ht.untouched
        obtain rfl := ht.alive_eq
        have hpruned := hs.searched ht
        refine ⟨?_, .inl ⟨hdead, p, hreach, hgiven, hfirst.imp_right (Or.imp_right fun hc => ?_)⟩⟩
        swap
        · exact ⟨hc.not_root, t.tempRoots, ht.temp, ht.timely start hc.passed⟩
        show Pruned store T derivers tally base (.upTo others (gone options t.dead)) _
        rw [hdead]
        exact ⟨hpruned.dropped, hpruned.reported, hpruned.entries, hpruned.counted, hpruned.coherent,
          hpruned.complete, hpruned.sound, hpruned.temp, hpruned.roots⟩
      · cases hr
  | some visited =>
      refine Spec.at_state fun t ht => ?_
      rcases ht with ⟨hr, -⟩ | ⟨visited', passed', hr, ht, hfound⟩
      · cases hr
      obtain rfl := Option.some.inj hr
      refine Spec.seq (((topoSortPaths_spec henv hprinted' visited).weaken
        (fun u hu => hu ▸ ht) (fun _ _ h => h) ?_)) fun sorted => Spec.given fun hsorted => ?_
      · rintro e u ⟨-, hbroken | ⟨c, rfl, hcycle⟩⟩
        · exact hbroken.fails hs
        · exact fails_of_cycle hcycle hs
      -- referrers first, so every path is free when its turn comes
      have hloop : Spec (Deleting store T derivers tally base (.upTo others (gone options s.dead))
          s.dead s.alive fun p => p ∈ visited ∧ p ∉ s.dead)
          (sorted.forM (deleteVisited store env options settings)) _ _ :=
        deleteSorted_spec henv hprinted htally hs.dropped hsorted
          fun p hp hd hvalid q hq => hfound.closed p hp hd hvalid q (.inl hq)
      refine hloop.weaken (fun u hu => ?_) (fun _ u hu => ?_) fun _ _ h => h
      · exact ⟨hs.searched hu, congrArg (fun w => w.2.2.1) hu.untouched, hu.alive_eq,
          fun p hp => ⟨hu.passed_eq ▸ ((hfound.cleared p hp.1).resolve_left hp.2).passed,
            hu.timely p ((hfound.cleared p hp.1).resolve_left hp.2).passed⟩⟩
      · obtain ⟨left, hu⟩ := hu
        refine ⟨?_, .inr ⟨hu.alive_eq, visited, passed', hu.dead_eq, hfound, fun p hp =>
          ⟨t.tempRoots, ht.temp, ht.timely p hp⟩⟩⟩
        show Pruned store T derivers tally base (.upTo others (gone options u.dead)) _
        rw [hu.dead_eq]
        exact ⟨hu.dropped, hu.reported, hu.entries, hu.counted, hu.coherent, hu.complete, hu.sound,
          hu.temp, hu.roots⟩

include henv in
/-- An entry that is deleted without a search. -/
theorem deleteFromStore_resting {name : Bytes} (hlocked : lockedTempDir env name = false)
    (hcount : ∀ names b, tally names b → tally (insert name names) (b + env.freed name) ∧
      b + env.freed name ≤ options.maxFreed)
    (hs : Resting store options T derivers tally base others s) {E : GCThrow → Collecting → Prop} :
    Run s (deleteFromStore store env options name)
      (fun _ t => Resting store options T derivers tally base (insert name others) t ∧
        t.alive = s.alive ∧ t.dead = s.dead) E := by
  have hdeleted : Spec (Deleting store T derivers tally base (.upTo others (gone options s.dead))
      s.dead s.alive fun _ => False) (deleteFromStore store env options name) _ E :=
    deleteFromStore_spec henv hlocked (hcount _)
  refine hdeleted.weaken ?_ (fun _ t ht => ⟨?_, ht.alive_eq, ht.dead_eq⟩) fun _ _ h => h
  · rintro _ rfl
    exact ⟨hs, rfl, rfl, fun _ h => h.elim⟩
  · show Pruned store T derivers tally base (.upTo (insert name others) (gone options t.dead)) t
    rw [ht.dead_eq, Progress.upTo, Finset.insert_union]
    exact ht.toPruned

end Steps

end Collecting
end NixStore
