/-
  NixStore.Store.CollectSpecific

  Whether `collectGarbage` tells the truth when it has been asked to delete
  some paths.

  That a path is in `dead` is what the check behind each path goes by.  A path
  gets there before the last look at the temporary roots and before
  `invalidatePathChecked`, so a root that a client sends in between keeps a path
  that counts as dead.  Without such roots, what is dead is gone.
-/

import NixStore.Store.CollectDelete
import Mathlib.Data.UInt

namespace NixStore

open Effect OrderedSet Wire Relation

namespace Collecting

variable {store : StoreDirConfig} {env : Surroundings} {options : GCOptions}
  {settings : GCSettings}

-- ============================================================================
-- Behind the search for roots
-- ============================================================================

/-- A state in the search for roots. -/
structure Gathering (store : StoreDirConfig) (derivers : Bool) (s₀ s : Collecting) : Prop where
  part : s.toWorld.storePart = s₀.toWorld.storePart
  coherent : LocalStore.CoherentOver store derivers s₀.db s.toLocalStore
  same : (s.alive, s.dead, s.referrersCache, s.results) =
    (s₀.alive, s₀.dead, s₀.referrersCache, s₀.results)

theorem findAllRoots_gathers {derivers : Bool} {s₀ : Collecting} (hothers : LeavesStore env)
    (ignoreLiveness : Bool) :
    Keeps (Gathering store derivers s₀) (findAllRoots store env ignoreLiveness) := by
  refine findAllRoots_keeps (⟨?_, ?_, ?_, ?_, ?_⟩ :
    KeptByRoots store env (Gathering store derivers s₀) fun _ => True) (fun _ _ => trivial)
      ignoreLiveness
  · intro s hs
    refine ⟨(hothers s).trans hs.part, ⟨?_, hs.coherent.told⟩, hs.same⟩
    exact (congrArg Prod.fst (hothers s)).trans hs.coherent.db_eq
  · intro path s hs
    have hrun := LocalStore.CoherentOver.isValidPath path s.toLocalStore hs.coherent
    have hput : ∀ t, LocalStore.CoherentOver store derivers s₀.db t →
        Gathering store derivers s₀ (s.setLocalStore t) := by
      intro t ht
      refine ⟨?_, ht, hs.same⟩
      rw [← hs.part]
      show (t.db, s.files, s.links) = (s.db, s.files, s.links)
      rw [ht.db_eq, show s.db = s₀.db from hs.coherent.db_eq]
    unfold callStore
    cases hx : LocalStore.isValidPath store path s.toLocalStore with
    | ok valid t =>
        rw [hx] at hrun
        exact hput t hrun.1
    | error e t =>
        rw [hx] at hrun
        exact hrun.elim
  · exact fun _ _ _ hs => ⟨hs.part, hs.coherent, hs.same⟩
  · exact fun _ _ hs => ⟨hs.part, hs.coherent, hs.same⟩
  · exact fun _ _ hs => ⟨hs.part, hs.coherent, hs.same⟩

/-- Nothing has been deleted when the search for roots is over. -/
theorem Gathering.resting {derivers : Bool} {T : Finset Bytes → Prop}
    {tally : Finset Bytes → UInt64 → Prop} {w : World}
    {cache : LruCache StorePath (Option ValidPathInfo)} {s : Collecting}
    (h : Gathering store derivers (start w cache) s) (htally : tally ∅ 0) (htemp : T s.tempRoots) :
    Resting store options T derivers tally s ∅ s := by
  have hdead : s.dead = ∅ := congrArg (fun v => v.2.1) h.same
  have hcache : s.referrersCache = fun _ => none := congrArg (fun v => v.2.2.1) h.same
  have hresults : s.results = ⟨∅, 0⟩ := congrArg (fun v => v.2.2.2) h.same
  have hgone : gone options s.dead = ∅ := by
    rw [hdead]
    exact ite_self _
  unfold Resting
  rw [hgone]
  refine ⟨Dropped.none store s.db, ?_, fun name => ?_, ?_, ⟨rfl, ?_⟩, ?_, ?_, htemp, rfl⟩
  · rw [hresults]
    rfl
  · exact (if_neg (by simp [Progress.upTo, baseNames])).symm
  · rw [hresults]
    exact htally
  · have hdb : s.db = (start w cache).db := h.coherent.db_eq
    rw [hdb]
    exact h.coherent.told
  · intro p R hp
    rw [hcache] at hp
    cases hp
  · intro p R hp
    rw [hcache] at hp
    cases hp

/-- What has been deleted is not there. -/
theorem Pruned.not_hasEntry {T : Finset Bytes → Prop} {derivers : Bool}
    {tally : Finset Bytes → UInt64 → Prop} {base : Collecting} {g : Progress} {s : Collecting}
    (h : Pruned store T derivers tally base g s) {name : Bytes} (hname : name ∈ g.deleted) :
    ¬ HasEntry s.files name := by
  rintro ⟨hvalid, hmem⟩
  have hentry := h.entries name
  rw [if_pos hname, entry, dif_neg hvalid, Finmap.lookup_eq_none] at hentry
  exact hentry hmem

-- ============================================================================
-- The specified paths
-- ============================================================================

section Specific

variable {T : Finset Bytes → Prop} {derivers : Bool} {tally : Finset Bytes → UInt64 → Prop}
  {base : Collecting} (henv : OnlyTimelyRoots env T)
  (hprinted : LocalStore.PrintedRows store base.db)
  (hderivers : options.includeDerivers settings = true → derivers = true)
  (htally : Tallies env options ∅ tally)
include henv hprinted hderivers htally

/-- One of the specified paths: it is dead when the check behind it passes. -/
theorem deleteSpecific_spec (haction : options.action = .gcDeleteSpecific) (path : StorePath)
    {s : Collecting} (hs : Resting store options T derivers tally base ∅ s) :
    Run s (deleteSpecific store env options settings path)
      (fun _ t => Resting store options T derivers tally base ∅ t ∧ path ∈ t.dead ∧ s.dead ⊆ t.dead)
      (fun e _ => ∃ e', e = .error e') := by
  refine Spec.seq ((maybeDeleteReferrersClosure_spec henv hprinted path hderivers htally hs).weaken
    (fun _ h => h) (fun _ _ h => h) fun _ _ ⟨e', he, _⟩ => ⟨e', he⟩) fun _ => ?_
  refine Spec.look fun t ht => Spec.cond (fun _ => Spec.raise fun _ _ => ⟨_, rfl⟩) fun hdead =>
    Spec.ret ?_
  rintro _ rfl
  refine ⟨ht.1, ?_, ?_⟩
  · by_contra hnot
    exact hdead ⟨haction, hnot⟩
  · rcases ht.2 with ⟨heq, -⟩ | ⟨-, visited, passed, heq, -⟩
    · rw [heq]
    · rw [heq]
      exact Finset.subset_union_left

/-- All of them are dead when the loop has come to its end. -/
theorem deleteSpecifics_spec (haction : options.action = .gcDeleteSpecific)
    (paths : List StorePath) :
    Spec (Resting store options T derivers tally base ∅)
      (paths.forM (deleteSpecific store env options settings))
      (fun _ t => Resting store options T derivers tally base ∅ t ∧ ∀ p ∈ paths, p ∈ t.dead)
      (fun e _ => ∃ e', e = .error e') := by
  refine (Spec.loop (I := fun front t => Resting store options T derivers tally base ∅ t ∧
    ∀ p ∈ front, p ∈ t.dead) paths fun front path rest _ => Spec.at_state fun s hs => ?_).weaken
      (fun t ht => ⟨ht, fun p hp => absurd hp List.not_mem_nil⟩) (fun _ _ h => h) fun _ _ h => h
  refine (deleteSpecific_spec henv hprinted hderivers htally haction path hs.1).weaken
    (fun _ h => h) (fun _ t ht => ⟨ht.1, fun p hp => ?_⟩) fun _ _ h => h
  rcases List.mem_append.mp hp with hp | hp
  · exact ht.2.2 (hs.2 p hp)
  · rw [List.mem_singleton.mp hp]
    exact ht.2.1

end Specific

/-- The end of a collection that deletes leaves the store directory, the
    database and the variables alone. -/
theorem finish_deletes_keeps (hothers : LeavesStore env) (hdelete : options.shouldDelete = true)
    {J : Db → (Finmap fun _ : FileName => File) → Finset StorePath → Prop} :
    Keeps (fun s => J s.db s.files s.dead) (finish store env options) := by
  have hlinks : Keeps (fun s => J s.db s.files s.dead) (env.readdirLinks.forM (deleteLink env)) := by
    refine Keeps.loop fun name _ => Keeps.cond (Keeps.ret _) (Keeps.seq (interfere_keeps ?_)
      fun _ => Keeps.change fun _ hs => hs)
    intro s hs
    have hdb : (env.others s).db = s.db := congrArg Prod.fst (hothers s)
    have hfiles : (env.others s).files = s.files := congrArg (fun p => p.2.1) (hothers s)
    show J (env.others s).db (env.others s).files s.dead
    rw [hdb, hfiles]
    exact hs
  unfold finish
  cases haction : options.action with
  | gcReturnLive =>
      rw [GCOptions.shouldDelete, haction] at hdelete
      cases hdelete
  | gcReturnDead =>
      rw [GCOptions.shouldDelete, haction] at hdelete
      cases hdelete
  | gcDeleteDead => exact hlinks
  | gcDeleteSpecific => exact hlinks

/-- When no client sends a root for a path between the two looks at it, and the
    limit is not reached, a collection that returns has deleted all the paths it
    was asked to delete. -/
theorem collectGarbage_specific {derivers : Bool} {w : World}
    {cache : LruCache StorePath (Option ValidPathInfo)} {paths : Finset StorePath}
    {deleteReferrers : Bool} {s' : Collecting}
    (haction : options.action = .gcDeleteSpecific)
    (hpaths : options.pathsToDelete = .specificPaths paths deleteReferrers)
    (hlimit : ∀ names : Finset Bytes, ∑ name ∈ names, env.freed name ≤ options.maxFreed)
    (henv : OnlyTimelyRoots env fun _ => True) (hprinted : LocalStore.PrintedRows store w.db)
    (hcoherent : LocalStore.CoherentOver store derivers w.db (start w cache).toLocalStore)
    (hrun : collectGarbage store env options settings (start w cache) = .ok () s') :
    ∀ p ∈ paths, ¬ s'.db.Valid (store.printStorePath p) ∧ ¬ HasEntry s'.files p.baseName := by
  have hdelete : options.shouldDelete = true := by
    rw [GCOptions.shouldDelete, haction]
    rfl
  have hderivers : options.includeDerivers settings = true → derivers = true := by
    intro h
    rw [GCOptions.includeDerivers, hpaths] at h
    simp at h
  have htally : Tallies env options ∅ fun names b => b = ∑ name ∈ names, env.freed name := by
    rintro dead b path hnot rfl
    rw [Finset.empty_union]
    have hsum : ∑ name ∈ insert path.baseName (baseNames dead), env.freed name =
        ∑ name ∈ baseNames dead, env.freed name + env.freed path.baseName := by
      rw [Finset.sum_insert (fun hmem => hnot (mem_baseNames.mp hmem)), add_comm]
    exact ⟨hsum.symm, hsum ▸ hlimit _⟩
  unfold collectGarbage at hrun
  by_cases hnothing : options.nothingToDelete = true
  · -- there is nothing to delete
    intro p hp
    rw [GCOptions.nothingToDelete, hpaths] at hnothing
    rw [of_decide_eq_true hnothing] at hp
    exact absurd hp (Finset.notMem_empty p)
  rw [if_neg hnothing] at hrun
  obtain ⟨_, s₁, hroots, hrun⟩ := Effect.bind_eq_ok.mp hrun
  obtain ⟨_, s₂, hloop, hend⟩ := Effect.bind_eq_ok.mp hrun
  have hgathered : Gathering store derivers (start w cache) s₁ :=
    (findAllRoots_gathers henv.store options.ignoreLiveness).of_ok
      (⟨rfl, hcoherent, rfl⟩ : Gathering store derivers (start w cache) (start w cache)) hroots
  have hbase : LocalStore.PrintedRows store s₁.db := by
    have hdb : s₁.db = w.db := congrArg Prod.fst hgathered.part
    rw [hdb]
    exact hprinted
  have hspecific : Spec (Resting store options (fun _ => True) derivers
      (fun names b => b = ∑ name ∈ names, env.freed name) s₁ ∅)
      (orCatch isLimitReached (deletePaths store env options settings))
      (fun _ t => Resting store options (fun _ => True) derivers
        (fun names b => b = ∑ name ∈ names, env.freed name) s₁ ∅ t ∧
          ∀ p ∈ inOrder paths, p ∈ t.dead)
      fun _ _ => True := by
    rw [deletePaths, hpaths]
    refine orCatch_spec (deleteSpecifics_spec henv hbase hderivers htally haction (inOrder paths)) ?_
      fun _ _ _ _ => trivial
    rintro _ _ ⟨e', rfl⟩ hcaught
    cases hcaught
  have hdone := hspecific.of_ok (hgathered.resting Finset.sum_empty.symm trivial) hloop
  intro p hp
  have hdead : p ∈ gone options s₂.dead := by
    rw [gone, if_pos hdelete]
    exact hdone.2 p (mem_inOrder.mpr hp)
  refine (finish_deletes_keeps henv.store hdelete (J := fun db files _ =>
    ¬ db.Valid (store.printStorePath p) ∧ ¬ HasEntry files p.baseName)).of_ok ?_ hend
  refine ⟨fun hvalid => (hdone.1.dropped.valid_path.mp hvalid).2 hdead, hdone.1.not_hasEntry ?_⟩
  exact Finset.mem_union_right _ (mem_baseNames.mpr hdead)

variable (env) in
/-- The others do nothing but send temporary roots. -/
def OnlySendsRoots : Prop :=
  ∀ s, ∃ roots, s.tempRoots ⊆ roots ∧ env.others s = { s.toWorld with tempRoots := roots }

end Collecting

namespace Collecting

namespace Sample

open LocalStore.Sample (pathA row info)
open DiskStore.Sample (nameA)

/-- A database with one path. -/
def single : Db where
  validPaths := [row pathA 1]
  refs := ∅
  derivationOutputs := []
  lastId := 1
  id_le := by decide +kernel
  ids_nodup := by decide +kernel
  paths_nodup := by decide +kernel
  refs_foreign := by decide +kernel
  outputs_foreign := by decide +kernel

/-- A store with that database. -/
def world : World where
  db := single
  files := Finmap.singleton nameA (.regular false [])
  links := ∅
  outside := fun _ => none
  tempRoots := ∅

/-- A client sends the path as a root from some turn on. -/
def sends (turn : Nat) : Surroundings :=
  { alone [] with
    others := fun s =>
      if turn ≤ s.turns then
        { s.toWorld with tempRoots := insert pathA.hashPart s.tempRoots }
      else s.toWorld }

/-- The path is to be deleted. -/
def deleteA : GCOptions :=
  { action := .gcDeleteSpecific, pathsToDelete := .specificPaths {pathA} false }

theorem printed_single : LocalStore.PrintedRows LocalStore.Sample.store single := by
  rintro t ⟨r, hr, rfl⟩
  rw [List.mem_singleton.mp hr]
  exact ⟨pathA, rfl⟩

theorem sends_only (turn : Nat) : OnlySendsRoots (sends turn) := by
  intro s
  by_cases hturn : turn ≤ s.turns
  · exact ⟨_, Finset.subset_insert _ _, if_pos hturn⟩
  · exact ⟨_, Finset.Subset.refl _, if_neg hturn⟩

end Sample

open LocalStore.Sample (store pathA)
open Sample

/-- Nobody sends a root: the path is deleted. -/
theorem collectGarbage_specific_alone :
    ∃ s', collectGarbage store (alone []) deleteA {} (start world (LruCache.empty 10)) = .ok () s' ∧
      ∀ p ∈ ({pathA} : Finset StorePath),
        ¬ s'.db.Valid (store.printStorePath p) ∧ ¬ HasEntry s'.files p.baseName := by
  have hreturns : Effect.returns (collectGarbage store (alone []) deleteA {}
      (start world (LruCache.empty 10))) = true := by decide +kernel
  obtain ⟨⟨⟩, s', hrun⟩ := Effect.ok_of_returns hreturns
  refine ⟨s', hrun, ?_⟩
  have hcoherent : LocalStore.CoherentOver store false world.db
      (start world (LruCache.empty 10)).toLocalStore := ⟨rfl, fun _ _ hp => by cases hp⟩
  refine collectGarbage_specific rfl rfl (fun names => ?_) ?_ printed_single hcoherent hrun
  · exact UInt64.le_iff_toNat_le.mpr (Nat.le_of_lt_succ (UInt64.toNat_lt _))
  · exact ⟨fun _ => rfl, fun _ _ => trivial, fun _ _ _ h => h⟩

/-- A client sends the path as a root when the search has passed it: the
    collection returns, and the path is still valid. -/
theorem collectGarbage_specific_late :
    OnlySendsRoots (sends 1) ∧
      ∃ s', collectGarbage store (sends 1) deleteA {} (start world (LruCache.empty 10)) = .ok () s' ∧
        s'.db.Valid (store.printStorePath pathA) := by
  refine ⟨sends_only 1, ?_⟩
  have hreturns : (match collectGarbage store (sends 1) deleteA {}
      (start world (LruCache.empty 10)) with
    | .ok _ s' => decide (s'.db.Valid (store.printStorePath pathA))
    | .error _ _ => false) = true := by decide +kernel
  cases hrun : collectGarbage store (sends 1) deleteA {} (start world (LruCache.empty 10)) with
  | error e s' =>
      rw [hrun] at hreturns
      cases hreturns
  | ok u s' =>
      rw [hrun] at hreturns
      exact ⟨s', rfl, of_decide_eq_true hreturns⟩

end Collecting
end NixStore
