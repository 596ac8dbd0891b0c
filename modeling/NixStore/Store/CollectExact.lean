/-
  NixStore.Store.CollectExact

  What `collectGarbage` of the whole store deletes when nobody else is there.

  A path is live if a search from it gets to a root (`Live`), and garbage if a
  search from an entry that is not live gets to it (`Garbage`).  What has been
  found dead so far is garbage and what has been found alive is not, whatever
  the order in which the store directory is read (`Sound`), as long as what
  `markAlive` follows from a root is no garbage either (`Mirrored`).
-/

import NixStore.Store.CollectSpecific

namespace NixStore

open Effect OrderedSet Wire Relation

namespace Collecting

variable {store : StoreDirConfig} {env : Surroundings} {options : GCOptions}
  {settings : GCSettings}

-- ============================================================================
-- Live paths
-- ============================================================================

section Live

variable (store) (options) (settings) (base : Collecting)

/-- A permanent or temporary root. -/
def IsRoot (p : StorePath) : Prop := p ∈ base.roots ∨ p.hashPart ∈ base.tempRoots

/-- A path from which a search gets to a root. -/
def Live (p : StorePath) : Prop :=
  ∃ r, ReflTransGen (Pulls store options settings base.db) p r ∧ IsRoot base r

/-- What a search from an entry that is not live gets to. -/
def Garbage (p : StorePath) : Prop :=
  ∃ e : StorePath, HasEntry base.files e.baseName ∧ ¬ Live store options settings base e ∧
    ReflTransGen (Pulls store options settings base.db) e p

/-- What `markAlive` follows from a root is no garbage, for every root that a
    search from an entry can get to. -/
def Mirrored : Prop :=
  ∀ e r p : StorePath, HasEntry base.files e.baseName →
    ReflTransGen (Pulls store options settings base.db) e r → IsRoot base r →
    ReflTransGen (Follows store options settings base.db) r p →
    ¬ Garbage store options settings base p

variable {store} {options} {settings} {base}

theorem Live.of_reaches {p q : StorePath}
    (h : ReflTransGen (Pulls store options settings base.db) p q)
    (hq : Live store options settings base q) : Live store options settings base p :=
  hq.imp fun _ hr => ⟨h.trans hr.1, hr.2⟩

theorem Live.of_root {p : StorePath} (h : IsRoot base p) : Live store options settings base p :=
  ⟨p, ReflTransGen.refl, h⟩

theorem Garbage.not_live {p : StorePath} (h : Garbage store options settings base p) :
    ¬ Live store options settings base p := by
  obtain ⟨e, -, hnot, hreach⟩ := h
  exact fun hlive => hnot (hlive.of_reaches hreach)

theorem Garbage.of_reaches {p q : StorePath} (h : Garbage store options settings base p)
    (hq : ReflTransGen (Pulls store options settings base.db) p q) :
    Garbage store options settings base q := by
  obtain ⟨e, hentry, hnot, hreach⟩ := h
  exact ⟨e, hentry, hnot, hreach.trans hq⟩

/-- Among the entries, the garbage is what is not live. -/
theorem garbage_iff_not_live {p : StorePath} (hentry : HasEntry base.files p.baseName) :
    Garbage store options settings base p ↔ ¬ Live store options settings base p :=
  ⟨Garbage.not_live, fun hnot => ⟨p, hentry, hnot, ReflTransGen.refl⟩⟩

/-- Without derivers, what is followed pulls what it is followed from. -/
theorem mirrored_of_not_keepDerivations (h : options.includeDerivers settings = false) :
    Mirrored store options settings base := by
  intro e r p _ _ hr hfollows hgarbage
  refine hgarbage.not_live ?_
  clear hgarbage
  induction hfollows with
  | refl => exact Live.of_root hr
  | tail _ hstep ih =>
      rcases hstep with ⟨href, -⟩ | ⟨hinc, -⟩
      · exact Live.of_reaches (ReflTransGen.single (.inl href)) ih
      · rw [h] at hinc
        cases hinc

variable (store) (options) (settings) (base) in
/-- What has been found alive is no garbage, and what has been found dead is. -/
structure Sound (s : Collecting) : Prop where
  alive : ∀ p ∈ s.alive, ¬ Garbage store options settings base p
  dead : ∀ p ∈ s.dead, Garbage store options settings base p

variable (store) (options) (settings) (base) in
/-- What a search would get to from something dead has been found dead with it. -/
def Closed (s : Collecting) : Prop :=
  ∀ p ∈ s.dead, ∀ q, Pulls store options settings base.db p q → q ∈ s.dead

theorem Closed.of_reaches {s : Collecting} (h : Closed store options settings base s)
    {p q : StorePath} (hp : p ∈ s.dead)
    (hq : ReflTransGen (Pulls store options settings base.db) p q) : q ∈ s.dead := by
  induction hq with
  | refl => exact hp
  | tail _ hstep ih => exact h _ ih _ hstep

end Live

section Step

variable {T : Finset Bytes → Prop} {derivers : Bool} {tally : Finset Bytes → UInt64 → Prop}
  {base s t : Collecting} {others : Finset Bytes}

/-- What is followed now was followed in the beginning. -/
theorem Follows.of_dropped {gone : Finset StorePath} {db₀ db : Db} (h : Dropped store db₀ gone db)
    {p q : StorePath} (hpq : Follows store options settings db p q) :
    Follows store options settings db₀ p q := by
  rcases hpq with ⟨href, hne⟩ | ⟨hinc, ⟨row, hrow, hread⟩, hvalid⟩
  · exact .inl ⟨(h.pathRefers.mp href).1, hne⟩
  · refine .inr ⟨hinc, ⟨row, ?_, hread⟩, (h.valid.mp hvalid).1⟩
    rw [h.row] at hrow
    split at hrow
    · cases hrow
    · exact hrow

/-- An edge between paths that are not gone is still there. -/
theorem Pulls.of_dropped {gone : Finset StorePath} {db₀ db : Db} (h : Dropped store db₀ gone db)
    {p q : StorePath} (hp : p ∉ gone) (hq : q ∉ gone)
    (hpq : Pulls store options settings db₀ p q) :
    Pulls store options settings db p q ∧ db.Valid (store.printStorePath p) := by
  rcases hpq with href | ⟨hvisit, hvalid, hder⟩
  · have href' := h.pathRefers.mpr ⟨href, hq, hp⟩
    exact ⟨.inl href', href'.valid.2⟩
  · have hvalid' := h.valid_path.mpr ⟨hvalid, hp⟩
    refine ⟨.inr ⟨hvisit, hvalid', (h.derivers _ _).mpr ⟨hder, fun r hr heq => hq ?_⟩⟩, hvalid'⟩
    rwa [store.printStorePath_inj heq]

theorem gone_subset (options : GCOptions) (dead : Finset StorePath) : gone options dead ⊆ dead := by
  unfold gone
  split
  · exact Finset.Subset.refl _
  · exact Finset.empty_subset _

/-- What has been visited by a search that was not given up is closed. -/
theorem Found.visited_closed {start : StorePath} {passed visited : Finset StorePath}
    (hs : Resting store options T derivers tally base others s)
    (hclosed : Closed store options settings base s)
    (hfound : Found store options settings base.db s start s.alive passed visited) {p q : StorePath}
    (hp : p ∈ visited) (hpq : Pulls store options settings base.db p q) :
    q ∈ s.dead ∪ visited := by
  rw [Finset.mem_union]
  by_cases hpd : p ∈ s.dead
  · exact .inl (hclosed p hpd q hpq)
  by_cases hqd : q ∈ s.dead
  · exact .inl hqd
  -- the edge is still there, so the search has taken it
  obtain ⟨hpull, hvalid⟩ := hpq.of_dropped hs.dropped
    (fun hg => hpd (gone_subset options _ hg)) fun hg => hqd (gone_subset options _ hg)
  exact .inr (hfound.closed p hp hpd hvalid q hpull)

/-- Nothing live has been visited by a search that was not given up. -/
theorem Found.not_live {start : StorePath} {passed visited : Finset StorePath}
    (hs : Resting store options T derivers tally base others s)
    (hclosed : Closed store options settings base s)
    (hdead : ∀ p ∈ s.dead, ¬ Live store options settings base p)
    (hfound : Found store options settings base.db s start s.alive passed visited)
    (hroots : ∀ p ∈ passed, p.hashPart ∉ base.tempRoots) :
    ∀ p ∈ visited, ¬ Live store options settings base p := by
  rintro p hp ⟨r, hreach, hr⟩
  -- along the way to the root everything is visited and nothing is dead
  induction hreach using ReflTransGen.head_induction_on with
  | refl =>
      have hnot : r ∉ s.dead := fun hd => hdead r hd (Live.of_root hr)
      have hcleared := (hfound.cleared r hp).resolve_left hnot
      rcases hr with hr | hr
      · exact hcleared.not_root (hs.roots.symm ▸ hr)
      · exact hroots r hcleared.passed hr
  | head hstep hrest ih =>
      rename_i x y
      refine ih ((Finset.mem_union.mp (hfound.visited_closed hs hclosed hp hstep)).resolve_left ?_)
      exact fun hd => hdead y hd ⟨r, hrest, hr⟩

/-- What is alive or dead goes on to be so, and nothing is both before it was. -/
structure Further (s t : Collecting) : Prop where
  alive : s.alive ⊆ t.alive
  dead : s.dead ⊆ t.dead
  spared : ∀ p ∈ s.alive, p ∉ s.dead → p ∉ t.dead

theorem Further.refl (s : Collecting) : Further s s :=
  ⟨Finset.Subset.refl _, Finset.Subset.refl _, fun _ _ h => h⟩

theorem Further.trans {u : Collecting} (h : Further s t) (h' : Further t u) : Further s u :=
  ⟨h.alive.trans h'.alive, h.dead.trans h'.dead,
    fun p hp hd => h'.spared p (h.alive hp) (h.spared p hp hd)⟩

theorem Outcome.further {db₀ : Db} {start : StorePath}
    (h : Outcome store options settings T db₀ start s t) : Further s t := by
  rcases h with ⟨hdead, p, -, hgiven, -⟩ | ⟨halive, visited, passed, hdead, hfound, -⟩
  · refine ⟨?_, hdead ▸ Finset.Subset.refl _, fun q _ hq => hdead ▸ hq⟩
    intro q hq
    cases hgiven with
    | alive _ halive => exact (halive q).mpr (.inr hq)
    | root _ _ halive => exact (halive q).mpr (.inl (.inr hq))
    | excluded _ heq => exact heq ▸ hq
  · refine ⟨halive ▸ Finset.Subset.refl _, hdead ▸ Finset.subset_union_left, fun q hq hd hmem => ?_⟩
    rw [hdead] at hmem
    rcases Finset.mem_union.mp hmem with hmem | hmem
    · exact hd hmem
    · exact ((hfound.cleared q hmem).resolve_left hd).not_alive hq

theorem Outcome.closed {start : StorePath}
    (hs : Resting store options T derivers tally base others s)
    (hclosed : Closed store options settings base s)
    (h : Outcome store options settings T base.db start s t) :
    Closed store options settings base t := by
  rcases h with ⟨hdead, -⟩ | ⟨-, visited, passed, hdead, hfound, -⟩
  · unfold Closed
    rw [hdead]
    exact hclosed
  · intro p hp q hpq
    rw [hdead] at hp ⊢
    rcases Finset.mem_union.mp hp with hp | hp
    · exact Finset.mem_union_left _ (hclosed p hp q hpq)
    · exact hfound.visited_closed hs hclosed hp hpq

/-- What comes of a search and the loop behind it is sound, and its start is
    found alive or dead. -/
theorem Outcome.sound {start : StorePath}
    (hpaths : options.pathsToDelete = .wholeStore)
    (hmirrored : Mirrored store options settings base)
    (hentry : HasEntry base.files start.baseName)
    (hs : Resting store options (· = base.tempRoots) derivers tally base others s)
    (hclosed : Closed store options settings base s)
    (hsound : Sound store options settings base s)
    (h : Outcome store options settings (· = base.tempRoots) base.db start s t) :
    Sound store options settings base t ∧ (start ∈ t.alive ∨ start ∈ t.dead) := by
  rcases h with ⟨hdead, p, hreach, hgiven, -⟩ | ⟨halive, visited, passed, hdead, hfound, hpassed⟩
  · cases hgiven with
    | alive hp halive =>
        refine ⟨⟨fun q hq => ?_, hdead ▸ hsound.dead⟩, .inl ((halive start).mpr (.inl rfl))⟩
        rcases (halive q).mp hq with rfl | hq
        · exact fun hgarbage => hsound.alive p hp (hgarbage.of_reaches hreach)
        · exact hsound.alive q hq
    | root hnot hroot halive =>
        have hisRoot : IsRoot base p := by
          rcases hroot with hroot | ⟨tempRoots, rfl, hroot⟩
          · exact .inl (hs.roots ▸ hroot)
          · exact .inr hroot
        refine ⟨⟨fun q hq => ?_, hdead ▸ hsound.dead⟩, .inl ((halive start).mpr (.inl (.inl rfl)))⟩
        rcases (halive q).mp hq with (rfl | hq) | hq
        · exact fun hgarbage => hgarbage.not_live (Live.of_reaches hreach (Live.of_root hisRoot))
        · exact hsound.alive q hq
        · exact hmirrored start p q hentry hreach hisRoot
            (ReflTransGen.mono (fun _ _ hstep => hstep.of_dropped hs.dropped) _ _ hq)
    | excluded hexcluded _ =>
        rw [GCOptions.excluded, hpaths] at hexcluded
        cases hexcluded
  · have hroots : ∀ p ∈ passed, p.hashPart ∉ base.tempRoots := by
      intro p hp
      obtain ⟨tempRoots, rfl, hnot⟩ := hpassed p hp
      exact hnot
    have hnot : ¬ Live store options settings base start :=
      hfound.not_live hs hclosed (fun p hp => (hsound.dead p hp).not_live) hroots start
        hfound.start_mem
    refine ⟨⟨halive ▸ hsound.alive, fun q hq => ?_⟩, .inr ?_⟩
    · rw [hdead] at hq
      rcases Finset.mem_union.mp hq with hq | hq
      · exact hsound.dead q hq
      · exact ⟨start, hentry, hnot, hfound.reached q hq⟩
    · rw [hdead]
      exact Finset.mem_union_right _ hfound.start_mem

-- ============================================================================
-- The loop over the store directory
-- ============================================================================

/-- A name in a directory is one component of a path. -/
theorem normalComponent_of_name {name : Bytes} (h : ¬ invalidName name) : NormalComponent name := by
  unfold invalidName at h
  push Not at h
  exact ⟨h.1, h.2.1, h.2.2.1, h.2.2.2.1⟩

theorem maybeParse_baseName {path : StorePath} (h : ¬ invalidName path.baseName) :
    store.maybeParseStorePath (store.text ++ ascii "/" ++ path.baseName) = some path := by
  unfold StoreDir.maybeParseStorePath
  rw [store.parseStorePath_component (normalComponent_of_name h), path.ofBaseName_baseName]
  rfl

theorem baseName_of_maybeParse {name : Bytes} {path : StorePath} (h : ¬ invalidName name)
    (hparse : store.maybeParseStorePath (store.text ++ ascii "/" ++ name) = some path) :
    path.baseName = name := by
  unfold StoreDir.maybeParseStorePath at hparse
  rw [store.parseStorePath_component (normalComponent_of_name h)] at hparse
  cases hbase : StorePath.ofBaseName name with
  | error e =>
      rw [hbase] at hparse
      cases hparse
  | ok q =>
      rw [hbase] at hparse
      rw [← Option.some.inj hparse]
      exact StorePath.baseName_of_ofBaseName hbase

/-- A base name is not one of the names that the loop skips. -/
theorem baseName_not_skipped (path : StorePath) :
    ¬ (path.baseName = ascii "." ∨ path.baseName = ascii ".." ∨ path.baseName = linksName) := by
  have hlen := (StorePath.checkBaseName_eq_ok.mp path.valid).1
  rintro (h | h | h)
  all_goals
    rw [h] at hlen
    revert hlen
    decide

variable (halone : ∀ s, env.others s = s.toWorld)

include halone in
theorem onlyTimelyRoots_of_alone {T : Finset Bytes → Prop} : OnlyTimelyRoots env T where
  store := fun s => congrArg World.storePart (halone s)
  keeps := fun s hs => by
    rw [halone s]
    exact hs
  timely := fun s p _ h => by
    rw [halone s] at h
    exact h

variable (store options settings) in
/-- What comes of one name of the store directory. -/
def Handled (base : Collecting) (name : Bytes) (s t : Collecting) : Prop :=
  (∃ path : StorePath, path.baseName = name ∧
      Outcome store options settings (· = base.tempRoots) base.db path s t) ∨
    (∀ path : StorePath, path.baseName ≠ name) ∧ t.alive = s.alive ∧ t.dead = s.dead

theorem Handled.closed {name : Bytes}
    (hs : Resting store options (· = base.tempRoots) derivers tally base others s)
    (hclosed : Closed store options settings base s)
    (h : Handled store options settings base name s t) :
    Closed store options settings base t := by
  rcases h with ⟨path, -, houtcome⟩ | ⟨-, -, hdead⟩
  · exact houtcome.closed hs hclosed
  · unfold Closed
    rw [hdead]
    exact hclosed

theorem Handled.further {name : Bytes} (h : Handled store options settings base name s t) :
    Further s t := by
  rcases h with ⟨path, -, houtcome⟩ | ⟨-, halive, hdead⟩
  · exact houtcome.further
  · exact ⟨halive ▸ Finset.Subset.refl _, hdead ▸ Finset.Subset.refl _, fun p _ hp => hdead ▸ hp⟩

variable (store env options) in
/-- A state in the loop over the store directory, as far as deletion has got. -/
def Emptying (derivers : Bool) (base : Collecting) (front : List Bytes) (s : Collecting) : Prop :=
  ∃ others, Resting store options (· = base.tempRoots) derivers (fun _ _ => True) base others s ∧
    ∀ name, name ∈ others ↔ name ∈ front ∧ Unguarded store env name

variable (store env options settings) in
/-- A state in that loop: what has been found is right, and every path in front
    has been found alive or dead. -/
structure Sweeping (derivers : Bool) (base : Collecting) (front : List Bytes) (s : Collecting) :
    Prop where
  emptying : Emptying store env options derivers base front s
  closed : Closed store options settings base s
  sound : Sound store options settings base s
  settled : ∀ p : StorePath, p.baseName ∈ front → p ∈ s.alive ∨ p ∈ s.dead

include halone in
/-- One name of the store directory. -/
theorem deleteEntry_spec (hmax : options.maxFreed = 0xffffffffffffffff)
    (hprinted : LocalStore.PrintedRows store base.db)
    (hderivers : options.includeDerivers settings = true → derivers = true) {front : List Bytes}
    {name : Bytes} (hname : name = ascii "." ∨ name = ascii ".." ∨ ¬ invalidName name)
    (hs : Emptying store env options derivers base front s) :
    Run s (deleteEntry store env options settings name)
      (fun _ t => Emptying store env options derivers base (front ++ [name]) t ∧
        Handled store options settings base name s t)
      (fun e _ => Fails store base.db e) := by
  have hlimit : ∀ b : UInt64, b ≤ options.maxFreed := by
    intro b
    rw [hmax]
    exact UInt64.le_iff_toNat_le.mpr (Nat.le_of_lt_succ (UInt64.toNat_lt _))
  have henv : OnlyTimelyRoots env (· = base.tempRoots) := onlyTimelyRoots_of_alone halone
  obtain ⟨others, hresting, hothers⟩ := hs
  -- the names that are deleted without a search
  have hsame : ¬ Unguarded store env name →
      ∀ n, n ∈ others ↔ n ∈ front ++ [name] ∧ Unguarded store env n := by
    intro hguarded n
    rw [hothers, List.mem_append, List.mem_singleton, or_and_right]
    refine (or_iff_left ?_).symm
    rintro ⟨rfl, h⟩
    exact hguarded h
  unfold deleteEntry
  refine Spec.cond (fun hskip => Spec.ret ?_) fun hskip => ?_
  · rintro _ rfl
    refine ⟨⟨others, hresting, hsame fun h => ?_⟩, .inr ⟨fun p hp => ?_, rfl, rfl⟩⟩
    · rcases hskip with h' | h' | h'
      · exact h.ne_dot h'
      · exact h.ne_dotdot h'
      · exact h.ne_links h'
    · rw [← hp] at hskip
      exact absurd hskip (baseName_not_skipped p)
  have hvalid : ¬ invalidName name := by
    rcases hname with h | h | h
    · exact absurd (.inl h) hskip
    · exact absurd (.inr (.inl h)) hskip
    · exact h
  cases hparse : store.maybeParseStorePath (store.text ++ ascii "/" ++ name) with
  | some path =>
      refine (maybeDeleteReferrersClosure_spec henv hprinted path hderivers
        (fun _ _ _ _ _ => ⟨trivial, hlimit _⟩) hresting).weaken (fun _ h => h) (fun _ t ht => ?_)
        fun _ _ h => h
      have hpath := baseName_of_maybeParse hvalid hparse
      refine ⟨⟨others, ht.1, hsame fun h => ?_⟩, .inl ⟨path, hpath, ht.2⟩⟩
      rw [h.not_storePath] at hparse
      cases hparse
  | none =>
      have hnoPath : ∀ p : StorePath, p.baseName ≠ name := by
        rintro p rfl
        rw [maybeParse_baseName hvalid] at hparse
        cases hparse
      show Run s (deleteFromStore store env options name) _ _
      by_cases hlocked : lockedTempDir env name = true
      · rw [deleteFromStore, if_pos hlocked]
        refine Spec.ret ?_
        rintro _ rfl
        refine ⟨⟨others, hresting, hsame fun h => ?_⟩, .inr ⟨hnoPath, rfl, rfl⟩⟩
        rw [h.not_locked] at hlocked
        cases hlocked
      · have hjunk : Unguarded store env name :=
          ⟨fun h => hskip (.inl h), fun h => hskip (.inr (.inl h)), fun h => hskip (.inr (.inr h)),
            hparse, by simpa using hlocked⟩
        refine (deleteFromStore_resting henv hjunk.not_locked
          (fun _ _ _ => ⟨trivial, hlimit _⟩) hresting).weaken (fun _ h => h) (fun _ t ht => ?_)
            fun _ _ h => h
        refine ⟨⟨insert name others, ht.1, fun n => ?_⟩, .inr ⟨hnoPath, ht.2.1, ht.2.2⟩⟩
        rw [Finset.mem_insert, hothers, List.mem_append, List.mem_singleton, or_and_right, or_comm]
        exact or_congr_right ⟨fun h => ⟨h, h ▸ hjunk⟩, fun h => h.1⟩

/-- One name more keeps what has been found right. -/
theorem Handled.sweeping (hpaths : options.pathsToDelete = .wholeStore)
    (hmirrored : Mirrored store options settings base) {front : List Bytes} {name : Bytes}
    (hentry : ∀ p : StorePath, p.baseName = name → HasEntry base.files p.baseName)
    (hs : Sweeping store env options settings derivers base front s)
    (ht : Emptying store env options derivers base (front ++ [name]) t)
    (h : Handled store options settings base name s t) :
    Sweeping store env options settings derivers base (front ++ [name]) t := by
  have hfront : ∀ p : StorePath, p.baseName ∈ front → p ∈ t.alive ∨ p ∈ t.dead := fun p hp =>
    (hs.settled p hp).imp (fun hmem => h.further.alive hmem) fun hmem => h.further.dead hmem
  obtain ⟨others, hresting, -⟩ := hs.emptying
  have hclosed := h.closed hresting hs.closed
  rcases h with ⟨path, rfl, houtcome⟩ | ⟨hnoPath, halive, hdead⟩
  · obtain ⟨hsound, hstart⟩ :=
      houtcome.sound hpaths hmirrored (hentry path rfl) hresting hs.closed hs.sound
    refine ⟨ht, hclosed, hsound, fun p hp => ?_⟩
    rcases List.mem_append.mp hp with hp | hp
    · exact hfront p hp
    · rw [StorePath.ext' (List.mem_singleton.mp hp)]
      exact hstart
  · refine ⟨ht, hclosed, ⟨halive ▸ hs.sound.alive, hdead ▸ hs.sound.dead⟩, fun p hp => ?_⟩
    rcases List.mem_append.mp hp with hp | hp
    · exact hfront p hp
    · exact absurd (List.mem_singleton.mp hp) (hnoPath p)

end Step

-- ============================================================================
-- The collection
-- ============================================================================

variable (store env options settings) in
/-- A collection of the whole store without a limit, with nobody else there, in
    a store in good order whose directory is read in any order. -/
structure Sweeps (derivers : Bool) (w : World) (cache : LruCache StorePath (Option ValidPathInfo)) :
    Prop where
  alone : ∀ s, env.others s = s.toWorld
  paths : options.pathsToDelete = .wholeStore
  action : options.action ≠ .gcDeleteSpecific
  unlimited : options.maxFreed = 0xffffffffffffffff
  readable : LocalStore.ReadableDb store w.db
  acyclic : Acyclic (LocalStore.PathRefers store w.db)
  coherent : LocalStore.CoherentOver store derivers w.db (start w cache).toLocalStore
  derivers : options.includeDerivers settings = true → derivers = true
  listed : ∀ name, HasEntry w.files name → name ∈ env.readdir
  names : ∀ name ∈ env.readdir,
    name = ascii "." ∨ name = ascii ".." ∨ name = linksName ∨ HasEntry w.files name

section Whole

variable {derivers : Bool} {w : World} {cache : LruCache StorePath (Option ValidPathInfo)}
  {base : Collecting} (h : Sweeps store env options settings derivers w cache)
  (hroots : findAllRoots store env options.ignoreLiveness (start w cache) = .ok () base)

theorem finish_returns (s : Collecting) : ∃ s', finish store env options s = .ok () s' := by
  have hspec : Spec (fun _ => True) (finish store env options) (fun _ _ => True)
      (fun _ _ => False) := by
    have hlinks : Spec (fun _ => True) (env.readdirLinks.forM (deleteLink env)) (fun _ _ => True)
        (fun _ _ => False) := by
      refine Spec.loop (I := fun _ _ => True) _ fun _ name _ _ => ?_
      refine Spec.cond (fun _ => Spec.ret fun _ _ => trivial) fun _ => ?_
      exact Spec.seq (Q := fun _ _ => True) (fun _ _ => trivial) fun _ =>
        Spec.change fun _ _ => trivial
    unfold finish
    cases options.action with
    | gcReturnLive => exact Spec.change fun _ _ => trivial
    | gcReturnDead => exact Spec.change fun _ _ => trivial
    | gcDeleteDead => exact hlinks
    | gcDeleteSpecific => exact hlinks
  have hrun := hspec s trivial
  cases hx : finish store env options s with
  | ok u s' => exact ⟨s', rfl⟩
  | error e s' =>
      rw [hx] at hrun
      exact hrun.elim

include h hroots

theorem Sweeps.gathered : Gathering store derivers (start w cache) base :=
  (findAllRoots_gathers (onlyTimelyRoots_of_alone (T := fun _ => True) h.alone).store
    options.ignoreLiveness).of_ok
      (⟨rfl, h.coherent, rfl⟩ : Gathering store derivers (start w cache) (start w cache)) hroots

omit hroots in
theorem Sweeps.entry_of_read {p : StorePath} (hread : p.baseName ∈ env.readdir) :
    HasEntry w.files p.baseName := by
  have hskip := baseName_not_skipped p
  rcases h.names _ hread with hp | hp | hp | hp
  · exact absurd (.inl hp) hskip
  · exact absurd (.inr (.inl hp)) hskip
  · exact absurd (.inr (.inr hp)) hskip
  · exact hp

theorem Sweeps.db_eq : base.db = w.db := congrArg Prod.fst (h.gathered hroots).part

theorem Sweeps.files_eq : base.files = w.files :=
  congrArg (fun part => part.2.1) (h.gathered hroots).part

/-- The loop over the store directory comes to its end, with any invariant of
    what comes of a name. -/
theorem Sweeps.returns {I : List Bytes → Collecting → Prop} (hbase : I [] base)
    (hstep : ∀ front name rest s t, env.readdir = front ++ name :: rest →
      Emptying store env options derivers base front s → I front s →
      Emptying store env options derivers base (front ++ [name]) t →
      Handled store options settings base name s t → I (front ++ [name]) t) :
    ∃ s₂ s', Emptying store env options derivers base env.readdir s₂ ∧ I env.readdir s₂ ∧
      finish store env options s₂ = .ok () s' ∧
      collectGarbage store env options settings (start w cache) = .ok () s' := by
  have hdb := h.db_eq hroots
  -- the loop over the store directory, the names read so far in front
  have hloop : Spec (fun s => Emptying store env options derivers base [] s ∧ I [] s)
      (env.readdir.forM (deleteEntry store env options settings))
      (fun _ s => Emptying store env options derivers base env.readdir s ∧ I env.readdir s)
      (fun e _ => Fails store base.db e) := by
    refine Spec.loop (I := fun front s => Emptying store env options derivers base front s ∧
      I front s) _ fun front name rest hsplit => Spec.at_state fun s hs => ?_
    refine (deleteEntry_spec h.alone h.unlimited (hdb ▸ h.readable.printed) h.derivers ?_
      hs.1).weaken (fun _ h => h) (fun _ t ht => ⟨ht.1, hstep front name rest s t hsplit hs.1 hs.2
        ht.1 ht.2⟩) fun _ _ h => h
    rcases h.names name (hsplit ▸ List.mem_append_right _ List.mem_cons_self) with
      hn | hn | hn | ⟨hn, -⟩
    · exact .inl hn
    · exact .inr (.inl hn)
    · refine .inr (.inr ?_)
      rw [hn]
      decide
    · exact .inr (.inr hn)
  have hstart : Emptying store env options derivers base [] base := by
    refine ⟨∅, (h.gathered hroots).resting trivial rfl, fun name => ?_⟩
    exact iff_of_false (Finset.notMem_empty name) fun hn => List.not_mem_nil hn.1
  -- without a limit nothing else is left of `deletePaths`
  have hpathsRun : deletePaths store env options settings =
      env.readdir.forM (deleteEntry store env options settings) := by
    unfold deletePaths
    rw [h.paths]
    show (if _ then _ else if _ then _ else _ : CollectM Unit) = _
    rw [if_neg (by rw [h.unlimited]; decide), if_neg h.action]
  have hrun := hloop base ⟨hstart, hbase⟩
  cases hx : env.readdir.forM (deleteEntry store env options settings) base with
  | error e s₂ =>
      rw [hx] at hrun
      -- it has no reason to throw
      obtain ⟨e', -, -, hbad | hbad⟩ := hrun
      · exact absurd (hdb ▸ h.readable) hbad
      · exact absurd (hdb ▸ h.acyclic) hbad
  | ok u s₂ =>
      rw [hx] at hrun
      obtain ⟨s', hend⟩ : ∃ s', finish store env options s₂ = .ok () s' := finish_returns s₂
      refine ⟨s₂, s', hrun.1, hrun.2, hend, ?_⟩
      have hcaught : orCatch isLimitReached (deletePaths store env options settings) base =
          .ok () s₂ := by
        rw [orCatch, hpathsRun, hx]
      unfold collectGarbage
      rw [if_neg (GCOptions.not_nothingToDelete h.paths), bind_of_ok hroots, bind_of_ok hcaught]
      exact hend

theorem Sweeps.dead_eq : base.dead = ∅ := congrArg (fun v => v.2.1) (h.gathered hroots).same

theorem Sweeps.alive_eq : base.alive = ∅ := congrArg (fun v => v.1) (h.gathered hroots).same

/-- Nothing is dead before the first search. -/
theorem Sweeps.closed : Closed store options settings base base := by
  unfold Closed
  rw [h.dead_eq hroots]
  exact fun p hp => absurd hp (Finset.notMem_empty p)

/-- If what is followed is no garbage, everything is found out rightly. -/
theorem Sweeps.sweeps (hmirrored : Mirrored store options settings base) :
    ∃ s₂ s', Sweeping store env options settings derivers base env.readdir s₂ ∧
      finish store env options s₂ = .ok () s' ∧
      collectGarbage store env options settings (start w cache) = .ok () s' := by
  have hsound : Sound store options settings base base := by
    refine ⟨?_, ?_⟩
    · rw [h.alive_eq hroots]
      exact fun p hp => absurd hp (Finset.notMem_empty p)
    · rw [h.dead_eq hroots]
      exact fun p hp => absurd hp (Finset.notMem_empty p)
  obtain ⟨s₂, s', hs, ⟨hclosed, hsound, hsettled⟩, hend, hrun⟩ := h.returns hroots
    (I := fun front s => Closed store options settings base s ∧
      Sound store options settings base s ∧
      ∀ p : StorePath, p.baseName ∈ front → p ∈ s.alive ∨ p ∈ s.dead)
    ⟨h.closed hroots, hsound, fun p hp => absurd hp List.not_mem_nil⟩ (by
      intro front name rest s t hsplit hs hI ht hhandled
      have hentry : ∀ p : StorePath, p.baseName = name → HasEntry base.files p.baseName := by
        rintro p rfl
        rw [h.files_eq hroots]
        exact h.entry_of_read (hsplit ▸ List.mem_append_right _ List.mem_cons_self)
      have hsweeping :=
        hhandled.sweeping h.paths hmirrored hentry ⟨hs, hI.1, hI.2.1, hI.2.2⟩ ht
      exact ⟨hsweeping.closed, hsweeping.sound, hsweeping.settled⟩)
  exact ⟨s₂, s', ⟨hs, hclosed, hsound, hsettled⟩, hend, hrun⟩

/-- Exactly the garbage is found dead. -/
theorem Sweeps.dead_iff {s₂ : Collecting}
    (hs : Sweeping store env options settings derivers base env.readdir s₂) {p : StorePath} :
    p ∈ s₂.dead ↔ Garbage store options settings base p := by
  refine ⟨hs.sound.dead p, ?_⟩
  rintro ⟨e, hentry, hnot, hreach⟩
  refine hs.closed.of_reaches ?_ hreach
  refine (hs.settled e (h.listed _ (h.files_eq hroots ▸ hentry))).resolve_left fun halive => ?_
  exact hs.sound.alive e halive ((garbage_iff_not_live hentry).mpr hnot)

/-- Exactly the live entries are found alive. -/
theorem Sweeps.alive_iff {s₂ : Collecting}
    (hs : Sweeping store env options settings derivers base env.readdir s₂) {p : StorePath}
    (hp : HasEntry w.files p.baseName) :
    p ∈ s₂.alive ↔ Live store options settings base p := by
  have hentry : HasEntry base.files p.baseName := h.files_eq hroots ▸ hp
  have hiff : Garbage store options settings base p ↔ ¬ Live store options settings base p :=
    garbage_iff_not_live hentry
  refine ⟨fun halive => ?_, fun hlive => ?_⟩
  · exact not_not.mp (mt hiff.mpr (hs.sound.alive p halive))
  · exact (hs.settled p (h.listed _ hp)).resolve_right fun hdead =>
      (hs.sound.dead p hdead).not_live hlive

end Whole

-- ============================================================================
-- What is left
-- ============================================================================

/-- What a collection leaves when exactly the paths with a property are to be
    kept. -/
structure Swept (store : StoreDirConfig) (env : Surroundings) (kept : StorePath → Prop) (w : World)
    (s' : Collecting) : Prop where
  row_kept : ∀ p, kept p →
    s'.db.queryPathInfo (store.printStorePath p) = w.db.queryPathInfo (store.printStorePath p)
  row_gone : ∀ p, ¬ kept p → ¬ s'.db.Valid (store.printStorePath p)
  row_old : ∀ t, s'.db.Valid t → w.db.Valid t
  refers : ∀ p q, LocalStore.PathRefers store s'.db p q ↔
    LocalStore.PathRefers store w.db p q ∧ kept p ∧ kept q
  derivers : ∀ p t, store.printStorePath p ∈ s'.db.queryValidDerivers t ↔
    store.printStorePath p ∈ w.db.queryValidDerivers t ∧ kept p
  entry_kept : ∀ p : StorePath, kept p → entry s'.files p.baseName = entry w.files p.baseName
  entry_gone : ∀ p : StorePath, ¬ kept p → entry s'.files p.baseName = none
  other_gone : ∀ name, Unguarded store env name → entry s'.files name = none
  other_kept : ∀ name, (∀ p : StorePath, p.baseName ≠ name) → ¬ Unguarded store env name →
    entry s'.files name = entry w.files name
  /-- `invalidatePathChecked` has not been refused. -/
  not_refused : ∀ p ∈ s'.dead, ¬ s'.db.Valid (store.printStorePath p)

theorem entry_eq_none {files : Finmap fun _ : FileName => File} {name : Bytes}
    (h : ¬ HasEntry files name) : entry files name = none := by
  unfold entry
  split
  · rfl
  · next hvalid =>
      rw [Finmap.lookup_eq_none]
      exact fun hmem => h ⟨hvalid, hmem⟩

theorem Db.valid_of_deriver {db : Db} {t u : Bytes} (h : t ∈ db.queryValidDerivers u) :
    db.Valid t := by
  obtain ⟨v, hv, hpath, -⟩ := Db.mem_queryValidDerivers.mp h
  exact ⟨v, hv, hpath⟩

/-- An entry that is deleted without a search is not one of a store path. -/
theorem Unguarded.ne_baseName {files : Finmap fun _ : FileName => File} {name : Bytes}
    {p : StorePath} (h : Unguarded store env name) (hp : HasEntry files p.baseName) :
    name ≠ p.baseName := by
  rintro rfl
  obtain ⟨hname, -⟩ := hp
  have hparse := h.not_storePath
  rw [maybeParse_baseName hname] at hparse
  cases hparse

theorem entry_ne_none {files : Finmap fun _ : FileName => File} {name : Bytes}
    (h : HasEntry files name) : entry files name ≠ none := by
  obtain ⟨hvalid, hmem⟩ := h
  unfold entry
  rw [dif_neg hvalid]
  exact fun hnone => Finmap.lookup_eq_none.mp hnone hmem

/-- Only what is said of the valid paths and the entries matters. -/
theorem Swept.of_agree {kept kept' : StorePath → Prop} {w : World} {s' : Collecting}
    (h : Swept store env kept w s')
    (hagree : ∀ p : StorePath, w.db.Valid (store.printStorePath p) ∨ HasEntry w.files p.baseName →
      (kept p ↔ kept' p)) : Swept store env kept' w s' where
  row_kept := fun p hp => by
    by_cases hv : w.db.Valid (store.printStorePath p)
    · exact h.row_kept p ((hagree p (.inl hv)).mpr hp)
    · have hv' : ¬ s'.db.Valid (store.printStorePath p) := fun hv' => hv (h.row_old _ hv')
      rw [← Db.isSome_queryPathInfo, Bool.not_eq_true, Option.isSome_eq_false_iff] at hv hv'
      rw [Option.isNone_iff_eq_none.mp hv, Option.isNone_iff_eq_none.mp hv']
  row_gone := fun p hp hv =>
    h.row_gone p (fun hkept => hp ((hagree p (.inl (h.row_old _ hv))).mp hkept)) hv
  row_old := h.row_old
  refers := fun p q => by
    rw [h.refers]
    refine and_congr_right fun href => ?_
    rw [hagree p (.inl href.valid.1), hagree q (.inl href.valid.2)]
  derivers := fun p t => by
    rw [h.derivers]
    refine and_congr_right fun hder => ?_
    rw [hagree p (.inl (Db.valid_of_deriver hder))]
  entry_kept := fun p hp => by
    by_cases hkept : kept p
    · exact h.entry_kept p hkept
    · have hnot : ¬ HasEntry w.files p.baseName := fun hp' =>
        hkept ((hagree p (.inr hp')).mpr hp)
      rw [h.entry_gone p hkept, entry_eq_none hnot]
  entry_gone := fun p hp => by
    by_cases hkept : kept p
    · have hnot : ¬ HasEntry w.files p.baseName := fun hp' => hp ((hagree p (.inr hp')).mp hkept)
      rw [h.entry_kept p hkept, entry_eq_none hnot]
    · exact h.entry_gone p hkept
  other_gone := h.other_gone
  other_kept := h.other_kept
  not_refused := h.not_refused

/-- Every valid path is on disk. -/
def Present (store : StoreDirConfig) (w : World) : Prop :=
  ∀ p : StorePath, w.db.Valid (store.printStorePath p) → HasEntry w.files p.baseName

section Results

variable {derivers : Bool} {w : World} {cache : LruCache StorePath (Option ValidPathInfo)}
  {base : Collecting} (h : Sweeps store env options settings derivers w cache)
  (hroots : findAllRoots store env options.ignoreLiveness (start w cache) = .ok () base)
include h hroots

/-- What the deletions leave. -/
theorem Sweeps.deleted (haction : options.action = .gcDeleteDead) {s₂ s' : Collecting}
    (hs : Emptying store env options derivers base env.readdir s₂)
    (hend : finish store env options s₂ = .ok () s') :
    Dropped store w.db s₂.dead s'.db ∧ s'.dead = s₂.dead ∧
      ∃ others : Finset Bytes,
        (∀ name, name ∈ others ↔ name ∈ env.readdir ∧ Unguarded store env name) ∧
        ∀ name, entry s'.files name =
          if name ∈ others ∪ baseNames s₂.dead then none else entry w.files name := by
  have hdelete : options.shouldDelete = true := by
    rw [GCOptions.shouldDelete, haction]
    rfl
  -- the end of the collection changes nothing that matters here
  obtain ⟨hdb', hfiles', hdead'⟩ : s'.db = s₂.db ∧ s'.files = s₂.files ∧ s'.dead = s₂.dead :=
    (finish_deletes_keeps (onlyTimelyRoots_of_alone (T := fun _ => True) h.alone).store hdelete
      (J := fun db files dead => db = s₂.db ∧ files = s₂.files ∧ dead = s₂.dead)).of_ok
        ⟨rfl, rfl, rfl⟩ hend
  obtain ⟨others, hresting, hothers⟩ := hs
  have hgone : gone options s₂.dead = s₂.dead := if_pos hdelete
  unfold Resting at hresting
  rw [hgone] at hresting
  refine ⟨?_, hdead', others, hothers, fun name => ?_⟩
  · rw [hdb', ← h.db_eq hroots]
    exact hresting.dropped
  · rw [hfiles', ← h.files_eq hroots]
    exact hresting.entries name

/-- The entry of a path is deleted if the path has been found dead. -/
theorem Sweeps.entry_path (haction : options.action = .gcDeleteDead) {s₂ s' : Collecting}
    (hs : Emptying store env options derivers base env.readdir s₂)
    (hend : finish store env options s₂ = .ok () s') (p : StorePath) :
    entry s'.files p.baseName = if p ∈ s₂.dead then none else entry w.files p.baseName := by
  obtain ⟨-, -, others, hothers, hentries⟩ := h.deleted hroots haction hs hend
  rw [hentries]
  by_cases hp : HasEntry w.files p.baseName
  · have hiff : p.baseName ∈ others ∪ baseNames s₂.dead ↔ p ∈ s₂.dead := by
      rw [Finset.mem_union, mem_baseNames]
      exact or_iff_right fun hmem => ((hothers _).mp hmem).2.ne_baseName hp rfl
    exact if_congr hiff rfl rfl
  · rw [entry_eq_none hp, ite_self, ite_self]

/-- What is deleted is the garbage. -/
theorem Sweeps.swept (hmirrored : Mirrored store options settings base)
    (haction : options.action = .gcDeleteDead) :
    ∃ s', collectGarbage store env options settings (start w cache) = .ok () s' ∧
      Swept store env (fun p => ¬ Garbage store options settings base p) w s' := by
  obtain ⟨s₂, s', hs, hend, hrun⟩ := h.sweeps hroots hmirrored
  refine ⟨s', hrun, ?_⟩
  obtain ⟨hdropped, hdead', others, hothers, hentries⟩ := h.deleted hroots haction hs.emptying hend
  have hentry := h.entry_path hroots haction hs.emptying hend
  have hdead : ∀ p, p ∈ s₂.dead ↔ Garbage store options settings base p := fun p =>
    h.dead_iff hroots hs
  refine ⟨fun p hp => ?_, fun p hp hv => ?_, fun t ht => (hdropped.valid.mp ht).1,
    fun p q => ?_, fun p t => ?_, fun p hp => ?_,
    fun p hp => ?_, fun name hname => ?_, fun name hpath hname => ?_, fun p hp hv => ?_⟩
  · rw [hdropped.row, if_neg]
    rintro ⟨q, hq, heq⟩
    exact hp ((hdead p).mp (store.printStorePath_inj heq ▸ hq))
  · exact hp fun hgarbage => (hdropped.valid_path.mp hv).2 ((hdead p).mpr hgarbage)
  · rw [hdropped.pathRefers, hdead, hdead]
  · rw [hdropped.derivers, ← hdead]
    refine and_congr_right fun _ => ?_
    refine ⟨fun hall hp => hall p hp rfl, fun hp q hq heq => hp ?_⟩
    rwa [store.printStorePath_inj heq]
  · rw [hentry, if_neg fun hp' => hp ((hdead p).mp hp')]
  · rw [hentry, if_pos ((hdead p).mpr (not_not.mp hp))]
  · rw [hentries]
    split
    · rfl
    · next hmem =>
        refine entry_eq_none fun hlisted => hmem (Finset.mem_union_left _ ?_)
        exact (hothers name).mpr ⟨h.listed _ hlisted, hname⟩
  · rw [hentries, if_neg]
    intro hmem
    rcases Finset.mem_union.mp hmem with hmem | hmem
    · exact hname ((hothers name).mp hmem).2
    · obtain ⟨p, -, heq⟩ := Finset.mem_image.mp hmem
      exact hpath p heq
  · rw [hdead'] at hp
    exact (hdropped.valid_path.mp hv).2 hp

/-- If the valid paths are on disk, what is deleted is what is not live. -/
theorem Sweeps.swept_live (hpresent : Present store w)
    (hmirrored : Mirrored store options settings base)
    (haction : options.action = .gcDeleteDead) :
    ∃ s', collectGarbage store env options settings (start w cache) = .ok () s' ∧
      Swept store env (Live store options settings base) w s' := by
  obtain ⟨s', hrun, hswept⟩ := h.swept hroots hmirrored haction
  refine ⟨s', hrun, hswept.of_agree fun p hp => ?_⟩
  have hentry : HasEntry w.files p.baseName := hp.elim (hpresent p) id
  rw [garbage_iff_not_live (h.files_eq hroots ▸ hentry), not_not]

omit h hroots in
theorem mem_printStorePathSet {paths : Finset StorePath} {p : StorePath} :
    store.printStorePath p ∈ printStorePathSet store paths ↔ p ∈ paths := by
  unfold printStorePathSet
  rw [Finset.mem_image]
  exact ⟨fun ⟨q, hq, heq⟩ => store.printStorePath_inj heq ▸ hq, fun hp => ⟨p, hp, rfl⟩⟩

omit h hroots in
/-- What has been reported before the answer is no path in the store. -/
theorem Sweeping.not_reported {s₂ : Collecting}
    (hs : Sweeping store env options settings derivers base env.readdir s₂)
    (hquery : options.shouldDelete = false) {p : StorePath} (hp : HasEntry w.files p.baseName) :
    store.printStorePath p ∉ s₂.results.paths := by
  obtain ⟨others, hresting, hothers⟩ := hs.emptying
  have hgone : gone options s₂.dead = ∅ := if_neg (by rw [hquery]; exact Bool.false_ne_true)
  have hreported := hresting.reported
  rw [hgone] at hreported
  rw [hreported, Finset.mem_image]
  rintro ⟨name, hname, heq⟩
  have hname' : name = p.baseName := List.append_cancel_left heq
  rcases Finset.mem_union.mp hname with hname | hname
  · exact ((hothers _).mp hname).2.ne_baseName hp hname'
  · exact absurd (mem_baseNames.mp (hname' ▸ hname)) (Finset.notMem_empty p)

/-- The dead paths that are returned. -/
theorem Sweeps.returnsDead (hmirrored : Mirrored store options settings base)
    (haction : options.action = .gcReturnDead) :
    ∃ s', collectGarbage store env options settings (start w cache) = .ok () s' ∧
      ∀ p : StorePath, HasEntry w.files p.baseName →
        (store.printStorePath p ∈ s'.results.paths ↔ ¬ Live store options settings base p) := by
  obtain ⟨s₂, s', hs, hend, hrun⟩ := h.sweeps hroots hmirrored
  refine ⟨s', hrun, fun p hp => ?_⟩
  have hquery : options.shouldDelete = false := by
    rw [GCOptions.shouldDelete, haction]
    rfl
  unfold finish at hend
  rw [haction] at hend
  cases hend
  show store.printStorePath p ∈ printStorePathSet store s₂.dead ∪ s₂.results.paths ↔ _
  rw [Finset.mem_union, mem_printStorePathSet, or_iff_left (hs.not_reported hquery hp)]
  rw [h.dead_iff hroots hs, garbage_iff_not_live (h.files_eq hroots ▸ hp)]

/-- The live paths that are returned. -/
theorem Sweeps.returnsLive (hmirrored : Mirrored store options settings base)
    (haction : options.action = .gcReturnLive) :
    ∃ s', collectGarbage store env options settings (start w cache) = .ok () s' ∧
      ∀ p : StorePath, HasEntry w.files p.baseName →
        (store.printStorePath p ∈ s'.results.paths ↔ Live store options settings base p) := by
  obtain ⟨s₂, s', hs, hend, hrun⟩ := h.sweeps hroots hmirrored
  refine ⟨s', hrun, fun p hp => ?_⟩
  have hquery : options.shouldDelete = false := by
    rw [GCOptions.shouldDelete, haction]
    rfl
  unfold finish at hend
  rw [haction] at hend
  cases hend
  show store.printStorePath p ∈ printStorePathSet store s₂.alive ∪ s₂.results.paths ↔ _
  rw [Finset.mem_union, mem_printStorePathSet, or_iff_left (hs.not_reported hquery hp)]
  exact h.alive_iff hroots hs hp

end Results

/-- A path from which a root is reached by following referrers. -/
def ReachesRoot (store : StoreDirConfig) (w : World) (base : Collecting) (p : StorePath) : Prop :=
  ∃ r, ReflTransGen (fun p q => LocalStore.PathRefers store w.db q p) p r ∧ IsRoot base r

/-- Without derivers and outputs to keep, these are the live paths. -/
theorem live_iff_reachesRoot {w : World} {base : Collecting} (hdb : base.db = w.db)
    (hkeep : settings.keepOutputs = false) (p : StorePath) :
    Live store options settings base p ↔ ReachesRoot store w base p := by
  have hpulls : Pulls store options settings base.db =
      fun p q => LocalStore.PathRefers store w.db q p := by
    funext p q
    refine propext ⟨fun hpull => ?_, fun href => .inl (hdb ▸ href)⟩
    rcases hpull with href | ⟨hvisit, -⟩
    · exact hdb ▸ href
    · rw [GCOptions.visitDerivers, hkeep] at hvisit
      simp at hvisit
  unfold Live ReachesRoot
  rw [hpulls]

/-- A collection of the whole store deletes exactly the paths from which no root
    is reached, and what is no path and not in use; the queries return exactly
    these paths, and the others. -/
theorem collectGarbage_wholeStore {w : World} {cache : LruCache StorePath (Option ValidPathInfo)}
    {base : Collecting} (h : Sweeps store env options settings false w cache)
    (hpresent : Present store w) (houtputs : settings.keepOutputs = false)
    (hderivations : settings.keepDerivations = false)
    (hroots : findAllRoots store env options.ignoreLiveness (start w cache) = .ok () base) :
    ∃ s', collectGarbage store env options settings (start w cache) = .ok () s' ∧
      (options.action = .gcDeleteDead → Swept store env (ReachesRoot store w base) w s') ∧
      (options.action = .gcReturnDead → ∀ p : StorePath, HasEntry w.files p.baseName →
        (store.printStorePath p ∈ s'.results.paths ↔ ¬ ReachesRoot store w base p)) ∧
      (options.action = .gcReturnLive → ∀ p : StorePath, HasEntry w.files p.baseName →
        (store.printStorePath p ∈ s'.results.paths ↔ ReachesRoot store w base p)) := by
  have hinc : options.includeDerivers settings = false := by
    rw [GCOptions.includeDerivers, hderivations]
    simp
  have hmirrored : Mirrored store options settings base := mirrored_of_not_keepDerivations hinc
  have hlive : Live store options settings base = ReachesRoot store w base :=
    funext fun p => propext (live_iff_reachesRoot (h.db_eq hroots) houtputs p)
  cases haction : options.action with
  | gcDeleteDead =>
      obtain ⟨s', hrun, hswept⟩ := h.swept_live hroots hpresent hmirrored haction
      exact ⟨s', hrun, fun _ => hlive ▸ hswept, fun h => (by cases h), fun h => (by cases h)⟩
  | gcReturnDead =>
      obtain ⟨s', hrun, hdead⟩ := h.returnsDead hroots hmirrored haction
      exact ⟨s', hrun, fun h => (by cases h), fun _ => hlive ▸ hdead, fun h => (by cases h)⟩
  | gcReturnLive =>
      obtain ⟨s', hrun, halive⟩ := h.returnsLive hroots hmirrored haction
      exact ⟨s', hrun, fun h => (by cases h), fun h => (by cases h), fun _ => hlive ▸ halive⟩
  | gcDeleteSpecific => exact absurd haction h.action

end Collecting

namespace Collecting

namespace Sample

open LocalStore.Sample (store pathA row info)
open DiskStore.Sample (nameA)

/-- Only garbage that has been built is deleted. -/
def plain : GCSettings := { keepDerivations := false }

theorem readable_single : LocalStore.ReadableDb store single := by
  intro r hr
  rw [List.mem_singleton.mp hr]
  have hok : ∀ {α : Type} {x : Except Error α}, x.toOption.isSome = true → ∃ a, x = .ok a := by
    intro α x hx
    cases x with
    | ok a => exact ⟨a, rfl⟩
    | error e => cases hx
  exact ⟨⟨pathA, rfl, by decide +kernel⟩, hok (by decide +kernel), hok (by decide +kernel),
    hok (by decide +kernel), hok (by decide +kernel)⟩

theorem acyclic_single : Acyclic (LocalStore.PathRefers store single) := by
  refine Acyclic.of_rank (fun _ => 0) ?_
  rintro p q ⟨_, _, _, _, _, _, hmem⟩ _
  exact absurd hmem (Finset.notMem_empty _)

/-- The store with one path is in good order. -/
theorem sweeps_world :
    Sweeps store (alone [nameA.val]) {} plain false world (LruCache.empty 10) where
  alone := fun _ => rfl
  paths := rfl
  action := by decide
  unlimited := rfl
  readable := readable_single
  acyclic := acyclic_single
  coherent := ⟨rfl, fun _ _ hp => by cases hp⟩
  derivers := nofun
  listed := by
    rintro name ⟨hname, hmem⟩
    rw [world, Finmap.mem_singleton] at hmem
    rw [← hmem]
    exact List.mem_singleton.mpr rfl
  names := by
    intro name hname
    rw [List.mem_singleton.mp hname]
    exact .inr (.inr (.inr ⟨nameA.2, (Finmap.mem_singleton _ _ _).mpr rfl⟩))

theorem present_world : Present store world := by
  rintro p ⟨r, hr, hpath⟩
  rw [List.mem_singleton.mp hr] at hpath
  obtain rfl := store.printStorePath_inj hpath
  exact ⟨nameA.2, (Finmap.mem_singleton _ _ _).mpr rfl⟩

/-- A store with one entry that is no path is in good order. -/
theorem sweeps_only : Sweeps store (alone [junk.val]) {} plain false (only junk).toWorld
    (LruCache.empty 10) where
  alone := fun _ => rfl
  paths := rfl
  action := by decide
  unlimited := rfl
  readable := fun r hr => absurd hr List.not_mem_nil
  acyclic := by
    refine Acyclic.of_rank (fun _ => 0) ?_
    rintro p q ⟨r, hr, _⟩ _
    exact absurd hr List.not_mem_nil
  coherent := ⟨rfl, fun _ _ hp => by cases hp⟩
  derivers := nofun
  listed := by
    rintro name ⟨hname, hmem⟩
    rw [only, start, Finmap.mem_singleton] at hmem
    rw [← hmem]
    exact List.mem_singleton.mpr rfl
  names := by
    intro name hname
    rw [List.mem_singleton.mp hname]
    exact .inr (.inr (.inr ⟨junk.2, (Finmap.mem_singleton _ _ _).mpr rfl⟩))

end Sample

open LocalStore.Sample (store)
open DiskStore.Sample (nameA)
open Sample

/-- The only path is no root: it is deleted. -/
theorem collectGarbage_wholeStore_single :
    ∃ s', collectGarbage store (alone [nameA.val]) {} plain (start world (LruCache.empty 10)) =
        .ok () s' ∧
      Swept store (alone [nameA.val]) (ReachesRoot store world (start world (LruCache.empty 10)))
        world s' := by
  obtain ⟨s', hrun, hswept, -⟩ := collectGarbage_wholeStore sweeps_world present_world rfl rfl rfl
  exact ⟨s', hrun, hswept rfl⟩

/-- An entry that is no path does not stay. -/
theorem collectGarbage_wholeStore_other :
    Sweeps store (alone [junk.val]) {} plain false (only junk).toWorld (LruCache.empty 10) ∧
      Present store (only junk).toWorld ∧
      ∃ s', collectGarbage store (alone [junk.val]) {} plain
          (start (only junk).toWorld (LruCache.empty 10)) = .ok () s' ∧
        (∀ p : StorePath, p.baseName ≠ junk.val) ∧
        entry (only junk).files junk.val ≠ none ∧ entry s'.files junk.val = none := by
  refine ⟨sweeps_only, ?_, ?_⟩
  · rintro p ⟨r, hr, _⟩
    exact absurd hr List.not_mem_nil
  have hgone : (match collectGarbage store (alone [junk.val]) {} plain
      (start (only junk).toWorld (LruCache.empty 10)) with
    | .ok _ s' => (entry s'.files junk.val).isNone
    | .error _ _ => false) = true := by decide +kernel
  cases hrun : collectGarbage store (alone [junk.val]) {} plain
      (start (only junk).toWorld (LruCache.empty 10)) with
  | error e s' =>
      rw [hrun] at hgone
      cases hgone
  | ok u s' =>
      rw [hrun] at hgone
      refine ⟨s', rfl, fun p hp => ?_, by decide +kernel, Option.isNone_iff_eq_none.mp hgone⟩
      have hlen := (StorePath.checkBaseName_eq_ok.mp p.valid).1
      rw [hp] at hlen
      revert hlen
      decide +kernel

end Collecting
end NixStore
