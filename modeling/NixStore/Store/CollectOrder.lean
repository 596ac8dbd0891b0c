/-
  NixStore.Store.CollectOrder

  Whether what `collectGarbage` leaves depends on the order in which the store
  directory is read.

  `markAlive` follows references from a root, and derivers if derivations are
  to be kept; a search goes to referrers, and to derivers if outputs are to be
  kept.  No edge of the search leads from a deriver to what it has built, so
  whether the deriver of a live path is kept depends on which of them is read
  first.
-/

import NixStore.Store.CollectExact

namespace NixStore

open Effect OrderedSet Wire Relation

/-- The same surroundings, but other names are read in the store directory, or
    in another order. -/
def Surroundings.reading (env : Surroundings) (names : List Bytes) : Surroundings :=
  { env with readdir := names }

namespace Collecting

variable {store : StoreDirConfig} {env : Surroundings} {options : GCOptions}
  {settings : GCSettings}

/-- The same valid paths and the same entries. -/
structure SameStore (s t : Collecting) : Prop where
  valid : ∀ path, s.db.Valid path ↔ t.db.Valid path
  entries : ∀ name, entry s.files name = entry t.files name

-- ============================================================================
-- The first name
-- ============================================================================

section First

variable {base t : Collecting} {path : StorePath}
  (h : Outcome store options settings (· = base.tempRoots) base.db path base t)
  (halive : base.alive = ∅)
include h halive

/-- A path that is not live is deleted when it comes first. -/
theorem Outcome.dead_of_not_live (hpaths : options.pathsToDelete = .wholeStore)
    (hnot : ¬ Live store options settings base path) : path ∈ t.dead := by
  rcases h with ⟨-, p, hreach, hgiven, -⟩ | ⟨-, visited, passed, hdead, hfound, -⟩
  · cases hgiven with
    | alive hp _ =>
        rw [halive] at hp
        exact absurd hp (Finset.notMem_empty p)
    | root _ hroot _ =>
        refine absurd (Live.of_reaches hreach (Live.of_root ?_)) hnot
        rcases hroot with hroot | ⟨tempRoots, rfl, hroot⟩
        · exact .inl hroot
        · exact .inr hroot
    | excluded hexcluded _ =>
        rw [GCOptions.excluded, hpaths] at hexcluded
        cases hexcluded
  · rw [hdead]
    exact Finset.mem_union_right _ hfound.start_mem

/-- What is followed from a root that comes first is alive from then on. -/
theorem Outcome.alive_of_root (hdead : base.dead = ∅)
    (hpaths : options.pathsToDelete = .wholeStore) (hroot : IsRoot base path) {q : StorePath}
    (hq : ReflTransGen (Follows store options settings base.db) path q) :
    q ∈ t.alive ∧ q ∉ t.dead := by
  have hnotDead : path ∉ base.dead := by
    rw [hdead]
    exact Finset.notMem_empty path
  have hroots : path ∉ base.roots → ¬ ∃ tempRoots, tempRoots = base.tempRoots ∧
      path.hashPart ∉ tempRoots := by
    rintro hnot ⟨_, rfl, htemp⟩
    exact hroot.elim hnot htemp
  rcases h with ⟨heq, p, -, hgiven, hfirst⟩ | ⟨-, visited, passed, -, hfound, hpassed⟩
  · obtain rfl : p = path := by
      rcases hfirst with hp | hmem | ⟨hnot, htemp⟩
      · exact hp
      · exact absurd hmem hnotDead
      · exact absurd htemp (hroots hnot)
    cases hgiven with
    | alive hp _ =>
        rw [halive] at hp
        exact absurd hp (Finset.notMem_empty p)
    | root _ _ hmem =>
        refine ⟨(hmem q).mpr (.inr hq), ?_⟩
        rw [heq, hdead]
        exact Finset.notMem_empty q
    | excluded hexcluded _ =>
        rw [GCOptions.excluded, hpaths] at hexcluded
        cases hexcluded
  · have hcleared := (hfound.cleared path hfound.start_mem).resolve_left hnotDead
    exact absurd (hpassed path hcleared.passed) (hroots hcleared.not_root)

end First

-- ============================================================================
-- Runs
-- ============================================================================

section Order

variable {derivers : Bool} {w : World} {cache : LruCache StorePath (Option ValidPathInfo)}
  {base : Collecting} (h : Sweeps store env options settings derivers w cache)
  (hroots : findAllRoots store env options.ignoreLiveness (start w cache) = .ok () base)
include h

theorem Sweeps.reading {names : List Bytes} (hperm : names.Perm env.readdir) :
    Sweeps store (env.reading names) options settings derivers w cache where
  alone := h.alone
  paths := h.paths
  action := h.action
  unlimited := h.unlimited
  readable := h.readable
  acyclic := h.acyclic
  coherent := h.coherent
  derivers := h.derivers
  listed := fun name hname => hperm.mem_iff.mpr (h.listed name hname)
  names := fun name hname => h.names name (hperm.mem_iff.mp hname)

include hroots

/-- What holds of a path behind the first name holds of it in the end. -/
theorem Sweeps.returns_first (haction : options.action = .gcDeleteDead) {first : StorePath}
    {rest : List Bytes} (hread : env.readdir = first.baseName :: rest) {P : Collecting → Prop}
    (hfirst : ∀ t, Outcome store options settings (· = base.tempRoots) base.db first base t → P t)
    (hfurther : ∀ s t, Further s t → P s → P t) :
    ∃ s₂ s', P s₂ ∧ Closed store options settings base s₂ ∧
      (∀ p : StorePath, entry s'.files p.baseName =
        if p ∈ s₂.dead then none else entry w.files p.baseName) ∧
      collectGarbage store env options settings (start w cache) = .ok () s' := by
  obtain ⟨s₂, s', hs, ⟨hclosed, -, hP⟩, hend, hrun⟩ := h.returns hroots
    (I := fun front s => Closed store options settings base s ∧ (front = [] → s = base) ∧
      (front ≠ [] → P s))
    ⟨h.closed hroots, fun _ => rfl, fun hne => absurd rfl hne⟩ (by
      intro front name rest' s t hsplit ⟨_, hresting, _⟩ hI _ hhandled
      refine ⟨hhandled.closed hresting hI.1,
        fun hnil => absurd hnil (List.append_ne_nil_of_right_ne_nil _ (List.cons_ne_nil _ _)),
        fun _ => ?_⟩
      by_cases hfront : front = []
      · subst hfront
        obtain rfl := hI.2.1 rfl
        rw [hread] at hsplit
        obtain rfl : first.baseName = name := (List.cons.inj hsplit).1
        rcases hhandled with ⟨path, hpath, houtcome⟩ | ⟨hnoPath, -⟩
        · rw [StorePath.ext' hpath] at houtcome
          exact hfirst t houtcome
        · exact absurd rfl (hnoPath first)
      · exact hfurther s t hhandled.further (hI.2.2 hfront))
  exact ⟨s₂, s', hP (hread ▸ List.cons_ne_nil _ _), hclosed,
    h.entry_path hroots haction hs hend, hrun⟩

omit h hroots in
theorem Swept.same {kept : StorePath → Prop} {s s' : Collecting} {names names' : List Bytes}
    (hprinted : LocalStore.PrintedRows store w.db)
    (hs : Swept store (env.reading names) kept w s) (hs' : Swept store (env.reading names') kept w s') :
    SameStore s s' := by
  have hvalid : ∀ {names names'} {s s' : Collecting}, Swept store (env.reading names) kept w s →
      Swept store (env.reading names') kept w s' → ∀ t, s.db.Valid t → s'.db.Valid t := by
    intro names names' s s' hs hs' t ht
    obtain ⟨p, rfl⟩ := hprinted t (hs.row_old t ht)
    have hkept : kept p := by
      by_contra hnot
      exact hs.row_gone p hnot ht
    rw [← Db.isSome_queryPathInfo, hs'.row_kept p hkept, ← hs.row_kept p hkept,
      Db.isSome_queryPathInfo]
    exact ht
  refine ⟨fun t => ⟨hvalid hs hs' t, hvalid hs' hs t⟩, fun name => ?_⟩
  by_cases hpath : ∃ p : StorePath, p.baseName = name
  · obtain ⟨p, rfl⟩ := hpath
    by_cases hkept : kept p
    · rw [hs.entry_kept p hkept, hs'.entry_kept p hkept]
    · rw [hs.entry_gone p hkept, hs'.entry_gone p hkept]
  · push Not at hpath
    by_cases hother : Unguarded store (env.reading names) name
    · rw [hs.other_gone name hother]
      exact (hs'.other_gone name ⟨hother.ne_dot, hother.ne_dotdot, hother.ne_links,
        hother.not_storePath, hother.not_locked⟩).symm
    · rw [hs.other_kept name hpath hother]
      exact (hs'.other_kept name hpath fun h => hother ⟨h.ne_dot, h.ne_dotdot, h.ne_links,
        h.not_storePath, h.not_locked⟩).symm

variable (store env options settings w cache) in
/-- What a collection leaves does not depend on the order in which the store
    directory is read. -/
def OrderIndependent : Prop :=
  ∀ names names', names.Perm env.readdir → names'.Perm env.readdir →
    SameStore
      (final (collectGarbage store (env.reading names) options settings) (start w cache))
      (final (collectGarbage store (env.reading names') options settings) (start w cache))

variable (store options settings base) in
/-- The valid roots that a search from an entry can get to are on disk. -/
def RootsPresent : Prop :=
  ∀ e r : StorePath, HasEntry base.files e.baseName →
    ReflTransGen (Pulls store options settings base.db) e r → IsRoot base r →
    base.db.Valid (store.printStorePath r) → HasEntry base.files r.baseName

omit hroots in
/-- If what is followed from a root is no garbage, the order does not matter. -/
theorem Sweeps.orderIndependent (haction : options.action = .gcDeleteDead)
    (hmirrored : ∀ base, findAllRoots store env options.ignoreLiveness (start w cache) = .ok () base →
      Mirrored store options settings base) :
    OrderIndependent store env options settings w cache := by
  intro names names' hperm hperm'
  cases hfound : findAllRoots store env options.ignoreLiveness (start w cache) with
  | error e s =>
      -- nothing has been read of the store directory
      have hthrown : ∀ names, collectGarbage store (env.reading names) options settings
          (start w cache) = .error e s := by
        intro names
        have hfound' : findAllRoots store (env.reading names) options.ignoreLiveness
            (start w cache) = .error e s := hfound
        unfold collectGarbage
        rw [if_neg (GCOptions.not_nothingToDelete h.paths), bind_of_error hfound']
      unfold final
      rw [hthrown names, hthrown names']
      exact ⟨fun _ => Iff.rfl, fun _ => rfl⟩
  | ok u base =>
      have hroots : findAllRoots store env options.ignoreLiveness (start w cache) = .ok () base :=
        hfound
      obtain ⟨s, hrun, hs⟩ := (h.reading hperm).swept hroots (hmirrored base hroots) haction
      obtain ⟨s', hrun', hs'⟩ := (h.reading hperm').swept hroots (hmirrored base hroots) haction
      unfold final
      rw [hrun, hrun']
      exact Swept.same h.readable.printed hs hs'

/-- If the order does not matter, what is followed from a root on disk is no
    garbage. -/
theorem Sweeps.mirrored (haction : options.action = .gcDeleteDead)
    (hpresent : RootsPresent store options settings base)
    (hsame : OrderIndependent store env options settings w cache) :
    Mirrored store options settings base := by
  intro e r p hentry hreach hroot hfollows hgarbage
  have hr : HasEntry w.files r.baseName := by
    rcases hfollows.cases_head with rfl | ⟨q, hq, -⟩
    · exact absurd (Live.of_root hroot) hgarbage.not_live
    · exact h.files_eq hroots ▸ hpresent e r hentry hreach hroot hq.valid.1
  obtain ⟨z, hz, hnot, hzp⟩ := hgarbage
  rw [h.files_eq hroots] at hz
  have hpermR := (List.perm_cons_erase (h.listed _ hr)).symm
  have hpermZ := (List.perm_cons_erase (h.listed _ hz)).symm
  -- the entry from which there is no way to a root comes first
  obtain ⟨s₂, s', hdead, -, hentries, hrun⟩ := (h.reading hpermZ).returns_first hroots haction rfl
    (P := fun s => z ∈ s.dead)
    (fun t ht => ht.dead_of_not_live (h.alive_eq hroots) h.paths hnot)
    fun s t hst hp => hst.dead hp
  -- the root comes first
  obtain ⟨u₂, u', hspared, hclosed, hentries', hrun'⟩ :=
    (h.reading hpermR).returns_first hroots haction rfl
      (P := fun s => p ∈ s.alive ∧ p ∉ s.dead)
      (fun t ht => ht.alive_of_root (h.alive_eq hroots) (h.dead_eq hroots) h.paths hroot hfollows)
      fun s t hst hp => ⟨hst.alive hp.1, hst.spared p hp.1 hp.2⟩
  have hkept : z ∉ u₂.dead := fun hz => hspared.2 (hclosed.of_reaches hz hzp)
  have hboth := (hsame _ _ hpermZ hpermR).entries z.baseName
  unfold final at hboth
  rw [hrun, hrun'] at hboth
  refine entry_ne_none hz ?_
  calc entry w.files z.baseName
      = entry u'.files z.baseName := by rw [hentries', if_neg hkept]
    _ = entry s'.files z.baseName := hboth.symm
    _ = none := by rw [hentries, if_pos hdead]

omit hroots in
/-- What a collection leaves does not depend on the order in which the store
    directory is read if what is followed from a root is no garbage, and, where
    the valid roots are on disk, only if it is not. -/
theorem collectGarbage_order (haction : options.action = .gcDeleteDead) :
    ((∀ base, findAllRoots store env options.ignoreLiveness (start w cache) = .ok () base →
        Mirrored store options settings base) →
      OrderIndependent store env options settings w cache) ∧
    ∀ base, findAllRoots store env options.ignoreLiveness (start w cache) = .ok () base →
      RootsPresent store options settings base →
      OrderIndependent store env options settings w cache → Mirrored store options settings base :=
  ⟨h.orderIndependent haction, fun _ hroots => h.mirrored hroots haction⟩

end Order

end Collecting

namespace Collecting

namespace Sample

open LocalStore.Sample (store pathA pathB row info)
open DiskStore.Sample (nameA)

/-- The directory entry of the second sample path. -/
def nameB : FileName := ⟨pathB.baseName, DiskStore.Sample.validName_pathB⟩

/-- The second path is the deriver of the first. -/
def derived : Db where
  validPaths :=
    [{ LocalStore.columns store 1 { info pathA ∅ with deriver := some pathB } with id := 1 },
      row pathB 2]
  refs := ∅
  derivationOutputs := []
  lastId := 2
  id_le := by decide +kernel
  ids_nodup := by decide +kernel
  paths_nodup := by decide +kernel
  refs_foreign := by decide +kernel
  outputs_foreign := by decide +kernel

/-- A link in the directory of roots. -/
def rootLink : List Bytes := [ascii "gcroots", ascii "r"]

/-- A store with that database, and a link to the first path. -/
def rooted : World where
  db := derived
  files := (Finmap.singleton nameA (.regular false [])).insert nameB (.regular false [])
  links := ∅
  outside := fun path =>
    if path = rootLink then some (.symlink (store.printStorePath pathA)) else none
  tempRoots := ∅

/-- Nobody else is there, and there is that link. -/
def linked : Surroundings :=
  { alone [nameA.val, nameB.val] with rootPaths := [rootLink] }

/-- The store is in good order. -/
theorem sweeps_rooted (settings : GCSettings) :
    Sweeps store linked {} settings true rooted (LruCache.empty 10) where
  alone := fun _ => rfl
  paths := rfl
  action := by decide
  unlimited := rfl
  readable := by
    have hok : ∀ {α : Type} {x : Except Error α}, x.toOption.isSome = true → ∃ a, x = .ok a := by
      intro α x hx
      cases x with
      | ok a => exact ⟨a, rfl⟩
      | error e => cases hx
    intro r hr
    rcases List.mem_cons.mp hr with rfl | hr
    · exact ⟨⟨pathA, rfl, by decide +kernel⟩, hok (by decide +kernel), hok (by decide +kernel),
        hok (by decide +kernel), hok (by decide +kernel)⟩
    · rw [List.mem_singleton.mp hr]
      exact ⟨⟨pathB, rfl, by decide +kernel⟩, hok (by decide +kernel), hok (by decide +kernel),
        hok (by decide +kernel), hok (by decide +kernel)⟩
  acyclic := by
    refine Acyclic.of_rank (fun _ => 0) ?_
    rintro p q ⟨_, _, _, _, _, _, hmem⟩ _
    exact absurd hmem (Finset.notMem_empty _)
  coherent := ⟨rfl, fun _ _ hp => by cases hp⟩
  derivers := fun _ => rfl
  listed := by
    rintro name ⟨hname, hmem⟩
    rcases Finmap.mem_insert.mp hmem with heq | hmem
    · exact List.mem_cons_of_mem _ (List.mem_singleton.mpr (Subtype.ext_iff.mp heq))
    · have hname : name = nameA.val := Subtype.ext_iff.mp ((Finmap.mem_singleton _ _ _).mp hmem)
      rw [hname]
      exact List.mem_cons_self
  names := by
    intro name hname
    rcases List.mem_cons.mp hname with rfl | hname
    · exact .inr (.inr (.inr
        ⟨nameA.2, Finmap.mem_insert.mpr (.inr ((Finmap.mem_singleton _ _ _).mpr rfl))⟩))
    · rw [List.mem_singleton.mp hname]
      exact .inr (.inr (.inr ⟨nameB.2, Finmap.mem_insert.mpr (.inl rfl)⟩))

end Sample

open LocalStore.Sample (store pathB)
open DiskStore.Sample (nameA)
open Sample

/-- Derivations are not to be kept: the order does not matter. -/
theorem collectGarbage_order_plain :
    SameStore
      (final (collectGarbage store (linked.reading [nameA.val, nameB.val]) {} plain)
        (start rooted (LruCache.empty 10)))
      (final (collectGarbage store (linked.reading [nameB.val, nameA.val]) {} plain)
        (start rooted (LruCache.empty 10))) := by
  have hmirrored : ∀ base,
      findAllRoots store linked false (start rooted (LruCache.empty 10)) = .ok () base →
      Mirrored store {} plain base := fun _ _ => mirrored_of_not_keepDerivations (by decide)
  exact (collectGarbage_order (sweeps_rooted plain) rfl).1 hmirrored _ _ (List.Perm.refl _)
    (List.Perm.swap _ _ _)

/-- With the settings that are the default, the deriver of a root is kept if the
    root is read first, and deleted if the deriver is. -/
theorem collectGarbage_order_deriver :
    Sweeps store linked {} {} true rooted (LruCache.empty 10) ∧
      (final (collectGarbage store (linked.reading [nameA.val, nameB.val]) {} {})
        (start rooted (LruCache.empty 10))).db.Valid (store.printStorePath pathB) ∧
      ¬ (final (collectGarbage store (linked.reading [nameB.val, nameA.val]) {} {})
        (start rooted (LruCache.empty 10))).db.Valid (store.printStorePath pathB) := by
  refine ⟨sweeps_rooted {}, ?_, ?_⟩
  · decide +kernel
  · decide +kernel

end Collecting
end NixStore
