/-
  NixStore.Store.CollectRoots

  Whether `collectGarbage` spares what a permanent root leads to, while other
  processes add paths and roots.

  The path that a link names becomes a root if `isValidPath` says that it is
  valid, and this process may remember otherwise: its path-info cache is its
  own and never expires.  A path that has become a root is not deleted, and
  then nothing that it leads to is, because the database refuses to drop a row
  that another row refers to.  So the cache can only do harm at the root.
-/

import NixStore.Store.CollectOrder
import NixStore.Store.RootSpelling

namespace NixStore

open Effect OrderedSet Relation Worklist

namespace Collecting

variable {store : StoreDirConfig} {env : Surroundings} {options : GCOptions}
  {settings : GCSettings}

-- ============================================================================
-- The other processes
-- ============================================================================

variable (store env) in
/-- The others add paths and references.  None of them makes a path valid while
    its deletion is pending: it would have to be a temporary root before, and
    the collector's server does not answer. -/
structure OnlyAdds : Prop where
  valid : ∀ s p, s.db.Valid (store.printStorePath p) →
    (env.others s).db.Valid (store.printStorePath p)
  refers : ∀ s p q, LocalStore.PathRefers store s.db p q →
    LocalStore.PathRefers store (env.others s).db p q
  blocked : ∀ s p, s.pending = some p.hashPart → ¬ s.db.Valid (store.printStorePath p) →
    ¬ (env.others s).db.Valid (store.printStorePath p)

variable (env) in
/-- A link below `gcroots` that is there when the collector has its lock, and
    that nobody replaces. -/
structure HeldLink (w : World) (link : List Bytes) (target : Bytes) : Prop where
  listed : link ∈ env.rootPaths
  there : w.outside link = some (.symlink target)
  lasts : ∀ s, s.outside link = some (.symlink target) →
    (env.others s).outside link = some (.symlink target)

/-- What a path leads to in a database. -/
abbrev LeadsTo (store : StoreDirConfig) (db : Db) : StorePath → StorePath → Prop :=
  ReflTransGen (LocalStore.PathRefers store db)

theorem LeadsTo.mono {db db' : Db} (h : ∀ p q, LocalStore.PathRefers store db p q →
    LocalStore.PathRefers store db' p q) {p r : StorePath} (hr : LeadsTo store db p r) :
    LeadsTo store db' p r := ReflTransGen.mono h p r hr

/-- What a path leads to has another path that refers to it. -/
theorem LeadsTo.referrer {db : Db} {p r : StorePath} (h : LeadsTo store db p r) (hne : p ≠ r) :
    ∃ q, q ≠ r ∧ LocalStore.PathRefers store db q r := by
  induction h using ReflTransGen.head_induction_on with
  | refl => exact absurd rfl hne
  | @head a c hac hcr ih =>
      by_cases hc : c = r
      · subst hc
        exact ⟨a, hne, hac⟩
      · exact ih hc

/-- What a path leads to is not lost with a path that it does not lead to. -/
theorem LeadsTo.invalidate {db db' : Db} {p path : StorePath}
    (hdb : db.invalidatePath (store.printStorePath path) = .ok db')
    (hnot : ¬ LeadsTo store db p path) {r : StorePath} (h : LeadsTo store db p r) :
    LeadsTo store db' p r := by
  have hne : ∀ {q : StorePath}, LeadsTo store db p q →
      store.printStorePath q ≠ store.printStorePath path := by
    intro q hq heq
    exact hnot (store.printStorePath_inj heq ▸ hq)
  induction h with
  | refl => exact ReflTransGen.refl
  | @tail a b hpa hab ih =>
      exact ih.tail ((Db.refers_invalidate hdb _ _).mpr ⟨hab, hne hpa, hne (hpa.tail hab)⟩)

/-- A path that another one leads to can not be dropped from the database. -/
theorem LeadsTo.not_invalidated {db db' : Db} {p path : StorePath} (hne : p ≠ path)
    (hdb : db.invalidatePath (store.printStorePath path) = .ok db') :
    ¬ LeadsTo store db p path := by
  intro h
  obtain ⟨q, hq, href⟩ := h.referrer hne
  exact hq (store.printStorePath_inj (Db.unreferenced_of_invalidate hdb href))

-- ============================================================================
-- The search for roots
-- ============================================================================

variable {w : World} {p : StorePath} {link : List Bytes} {target : Bytes}

/-- A state in the search for roots; `found` says whether the link has been
    read. -/
structure Seeking (store : StoreDirConfig) (w : World) (p : StorePath) (link : List Bytes)
    (target : Bytes) (found : Prop) (s : Collecting) : Prop extends Answered store p s where
  there : s.outside link = some (.symlink target)
  root : found → p ∈ s.roots
  leads : ∀ r, LeadsTo store w.db p r → LeadsTo store s.db p r
  dead : s.dead = ∅
  removals : s.removals = []

/-- A call of the store that leaves the database alone. -/
theorem callStore_db {α : Type} {x : StoreM α} {I : Collecting → Prop}
    (hx : ∀ db, Keeps (fun t : LocalStore => t.db = db) x)
    (hI : ∀ s t, I s → t.db = s.db → I (s.setLocalStore t)) : Keeps I (callStore x) := by
  intro s hs
  have hrun := hx s.db s.toLocalStore rfl
  unfold callStore
  cases hcall : x s.toLocalStore with
  | ok a t =>
      rw [hcall] at hrun
      exact hI s t hs hrun
  | error e t =>
      rw [hcall] at hrun
      exact hI s t hs hrun

section Roots

variable (hadds : OnlyAdds store env) (hlink : HeldLink env w link target)
include hadds hlink

theorem seeking_kept (found : Prop) :
    KeptByRoots store env (Seeking store w p link target found) (· ≠ link) where
  others := fun s hs =>
    { valid := hadds.valid s p hs.valid
      told := hs.told
      there := hlink.lasts s hs.there
      root := hs.root
      leads := fun r hr => (hs.leads r hr).mono (hadds.refers s)
      dead := hs.dead
      removals := hs.removals }
  isValidPath := by
    intro path s hs
    have hget : ∀ t : LocalStore, t.db = s.db → t.pathInfoCache.find p = s.pathInfoCache.find p →
        Seeking store w p link target found (s.setLocalStore t) := by
      intro t hdb hfind
      refine ⟨⟨?_, ?_⟩, hs.there, hs.root, ?_, hs.dead, hs.removals⟩
      · show t.db.Valid (store.printStorePath p)
        rw [hdb]
        exact hs.valid
      · show t.pathInfoCache.find p ≠ some none
        rw [hfind]
        exact hs.told
      · intro r hr
        show LeadsTo store t.db p r
        rw [hdb]
        exact hs.leads r hr
    have hkeeps : Keeps (fun t : LocalStore => t.db = s.db ∧
        t.pathInfoCache.find p = s.pathInfoCache.find p) (LocalStore.isValidPath store path) := by
      refine Keeps.seq (fun t ht => ⟨ht.1, (t.pathInfoCache.find_get path p).trans ht.2⟩)
        fun found => ?_
      cases found with
      | some value => exact Keeps.ret _
      | none => exact fun t ht => ht
    have hrun := hkeeps s.toLocalStore ⟨rfl, rfl⟩
    unfold callStore
    cases hcall : LocalStore.isValidPath store path s.toLocalStore with
    | ok valid t =>
        rw [hcall] at hrun
        exact hget t hrun.1 hrun.2
    | error e t =>
        rw [hcall] at hrun
        exact hget t hrun.1 hrun.2
  unlink := fun s path hpath hs =>
    { hs with there := (Function.update_of_ne (Ne.symm hpath) _ _).trans hs.there }
  root := fun s path hs =>
    { hs with root := fun h => Finset.mem_insert_of_mem (hs.root h) }
  tempRoot := fun s path hs =>
    { hs with root := fun h => Finset.mem_insert_of_mem (hs.root h) }

variable (htarget : store.toStorePath target = .ok p)
include htarget

/-- When the walk comes to the link, the path becomes a root. -/
theorem findRoot_link (found : Prop) :
    Spec (Seeking store w p link target found) (findRoot store env link)
      (fun _ => Seeking store w p link target True)
      (fun _ => Seeking store w p link target found) := by
  have hkept := seeking_kept (p := p) hadds hlink found
  have hin : store.isInStore target = true := by
    simp only [StoreDir.toStorePath, bind_eq_ok, throwIf_eq_ok, Bool.not_eq_false] at htarget
    exact htarget.choose_spec.1
  refine Spec.seq (interfere_keeps hkept.others) fun _ => Spec.look fun s hs => ?_
  rw [hs.there]
  dsimp only
  rw [if_pos hin, foundRoot, htarget]
  have hkeep := addRootIfValid_keeps hkept p
  have hadd := addRootIfValid_adds (fun s => hadds.valid s p) p s.roots
  refine (hkeep.both hadd).weaken ?_ ?_ fun _ _ h => h.1
  · rintro _ rfl
    exact ⟨hs, hs.toAnswered, rfl⟩
  · exact fun _ t ht => { ht.1 with root := fun _ => ht.2.mpr (Or.inr rfl) }

/-- When all roots have been found, the path is one of them. -/
theorem findAllRoots_seeks :
    Spec (Seeking store w p link target False) (findAllRoots store env false)
      (fun _ => Seeking store w p link target True) (fun _ s => s.removals = []) := by
  have hkept := seeking_kept (p := p) hadds hlink True
  have hpaths : Spec (Seeking store w p link target False) (env.rootPaths.forM (findRoot store env))
      (fun _ => Seeking store w p link target True) (fun _ s => s.removals = []) := by
    refine (Spec.loop (I := fun front => Seeking store w p link target (link ∈ front)) env.rootPaths
      fun front path rest _ => ?_).weaken (fun s hs => { hs with root := nofun })
        (fun _ s hs => { hs with root := fun _ => hs.root hlink.listed }) fun _ _ h => h
    by_cases hpath : path = link
    · subst hpath
      refine (findRoot_link hadds hlink htarget (path ∈ front)).weaken (fun _ h => h) ?_ ?_
      · exact fun _ s hs => { hs with root := fun _ => hs.root trivial }
      · exact fun _ s hs => hs.removals
    · refine (findRoot_keeps (seeking_kept hadds hlink (link ∈ front)) hpath).weaken
        (fun _ h => h) ?_ fun _ s hs => hs.removals
      refine fun _ s hs => { hs with root := fun hmem => hs.root ?_ }
      exact (List.mem_append.mp hmem).resolve_right fun h => hpath (List.mem_singleton.mp h).symm
  have hroots : Spec (Seeking store w p link target False) (findRootsNoTemp store env)
      (fun _ => Seeking store w p link target True) (fun _ s => s.removals = []) := by
    refine Spec.seq hpaths fun _ => ?_
    have hloop : Keeps (Seeking store w p link target True)
        (env.runtimeRoots.forM (addRootIfValid store env)) :=
      Keeps.loop fun path _ => addRootIfValid_keeps hkept path
    exact hloop.weaken (fun _ h => h) (fun _ _ h => h) fun _ _ h => h.removals
  have htemp : Keeps (Seeking store w p link target True) (do
      let tempRoots ← orThrow (findTempRoots store env)
      tempRoots.forM (addTempRoot env)) :=
    Keeps.seq (orThrow_keeps _) fun _ => Keeps.loop fun path _ =>
      Keeps.seq (interfere_keeps hkept.others) fun _ =>
        Keeps.change fun s hs => hkept.tempRoot s path hs
  exact Spec.seq hroots fun _ =>
    htemp.weaken (fun _ h => h) (fun _ _ h => h) fun _ _ h => h.removals

end Roots

-- ============================================================================
-- The search for referrers
-- ============================================================================

/-- A removal of something else. -/
def Spares (store : StoreDirConfig) (w : World) (p : StorePath) (e : Bytes × Db) : Prop :=
  ∀ r : StorePath, r.baseName = e.1 → ¬ LeadsTo store w.db p r ∧ ¬ LeadsTo store e.2 p r

/-- A state behind the search for roots: the path is a root, and nothing that it
    leads to has been removed. -/
structure Sparing (store : StoreDirConfig) (w : World) (p : StorePath) (s : Collecting) : Prop where
  root : p ∈ s.roots
  dead : p ∉ s.dead
  valid : s.db.Valid (store.printStorePath p)
  leads : ∀ r, LeadsTo store w.db p r → LeadsTo store s.db p r
  removals : ∀ e ∈ s.removals, Spares store w p e

theorem Seeking.sparing {s : Collecting} (h : Seeking store w p link target True s) :
    Sparing store w p s where
  root := h.root trivial
  dead := by
    rw [h.dead]
    exact Finset.notMem_empty p
  valid := h.valid
  leads := h.leads
  removals := by
    rw [h.removals]
    exact fun e he => absurd he List.not_mem_nil

section Search

variable (hadds : OnlyAdds store env)
include hadds

theorem Sparing.others {s : Collecting} (h : Sparing store w p s) :
    Sparing store w p (s.afterOthers env) where
  root := h.root
  dead := h.dead
  valid := hadds.valid s p h.valid
  leads := fun r hr => (h.leads r hr).mono (hadds.refers s)
  removals := h.removals

omit hadds in
theorem Sparing.of_db {s : Collecting} (h : Sparing store w p s) {t : LocalStore}
    (hdb : t.db = s.db) : Sparing store w p (s.setLocalStore t) := by
  refine ⟨h.root, h.dead, ?_, fun r hr => ?_, h.removals⟩
  · show t.db.Valid (store.printStorePath p)
    rw [hdb]
    exact h.valid
  · show LeadsTo store t.db p r
    rw [hdb]
    exact h.leads r hr

theorem sparing_kept : KeptBySearch store env (Sparing store w p) where
  others := fun _ hs => hs.others hadds
  isValidPath := fun path =>
    callStore_db (fun db => LocalStore.isValidPath_db store db path) fun _ _ hs => hs.of_db
  queryPathInfo := fun path =>
    callStore_db (fun db => LocalStore.queryPathInfo_db store db path) fun _ _ hs => hs.of_db
  query := fun _ => callStore_db (fun db => LocalStore.query_db db _) fun _ _ hs => hs.of_db
  pathReferences := fun path =>
    callStore_db (fun db => LocalStore.pathReferences_db store db path) fun _ _ hs => hs.of_db
  searchState := fun _ _ _ _ _ hs => ⟨hs.root, hs.dead, hs.valid, hs.leads, hs.removals⟩

omit hadds in
/-- A search is given up at a root. -/
theorem visitPath_root (start : StorePath) :
    Spec (Sparing store w p) (visitPath store env options settings start p)
      (fun visit _ => visit = .giveUp) (fun _ _ => True) := by
  refine Spec.look fun s hs => Spec.cond (fun _ => ?_) fun _ => Spec.cond (fun hdead => ?_) fun _ =>
    Spec.cond (fun _ => ?_) fun hnot => ?_
  · exact Spec.seq (Q := fun _ _ => True) (fun _ _ => trivial) fun _ => Spec.ret fun _ _ => rfl
  · exact absurd hdead hs.dead
  · refine Spec.seq (Q := fun _ _ => True) (fun _ _ => trivial) fun _ => ?_
    refine Spec.seq (Q := fun _ _ => True) ?_ fun _ => Spec.ret fun _ _ => rfl
    intro t _
    cases markAlive store env options settings p t with
    | ok u t' => exact trivial
    | error e t' => exact trivial
  · exact absurd hs.root hnot

/-- So a search that comes to its end has not visited the root. -/
theorem search_spares (start : StorePath) :
    Spec (Sparing store w p)
      (search store env options settings start (StorePath.limit + 1) {start} [start])
      (fun found s => Sparing store w p s ∧ ∀ visited, found = some visited → p ∉ visited)
      (fun _ => Sparing store w p) := by
  have hkept := sparing_kept (w := w) (p := p) hadds
  have hgo : ∀ bound visited todo, WellQueued visited todo →
      Bounded StorePath.limit bound visited todo → p ∉ expanded visited todo →
      Spec (Sparing store w p) (search store env options settings start bound visited todo)
        (fun found s => Sparing store w p s ∧ ∀ visited, found = some visited → p ∉ visited)
        (fun _ => Sparing store w p) := by
    intro bound
    induction bound with
    | zero => exact fun _ _ _ hbound => absurd rfl (hbound.ne_zero StorePath.card_le_limit)
    | succ bound ih =>
        intro visited todo hq hbound hnot
        cases todo with
        | nil =>
            rw [expanded_nil] at hnot
            exact Spec.ret fun s hs => ⟨hs, fun _ h => Option.some.inj h ▸ hnot⟩
        | cons path todo =>
            have hvisit : Spec (Sparing store w p)
                (visitPath store env options settings start path)
                (fun visit s => Sparing store w p s ∧ (path = p → visit = .giveUp))
                (fun _ => Sparing store w p) := by
              by_cases hpath : path = p
              · subst hpath
                refine ((visitPath_keeps hkept start path).both (visitPath_root start)).weaken
                  (fun _ h => ⟨h, h⟩) (fun _ _ h => ⟨h.1, fun _ => h.2⟩) fun _ _ h => h.1
              · refine (visitPath_keeps hkept start path).weaken (fun _ h => h) ?_ fun _ _ h => h
                exact fun _ _ h => ⟨h, fun heq => absurd heq hpath⟩
            refine Spec.seq hvisit fun visit => ?_
            cases visit with
            | giveUp => exact Spec.ret fun s hs => ⟨hs.1, nofun⟩
            | enqueue sets =>
                refine Spec.given fun hne => ?_
                obtain ⟨hq', hexp, -⟩ := enqueueSets_wellQueued hq.pop sets
                refine ih _ _ hq' ?_ ?_
                · have hpop := hbound.pop hq
                  unfold Bounded at hpop ⊢
                  rwa [hexp]
                · rw [hexp, hq.mem_expanded_pop]
                  rintro (rfl | hmem)
                  · cases hne rfl
                  · exact hnot hmem
  refine hgo _ _ _ (wellQueued_start start) (bounded_start _ start) ?_
  rw [expanded_start]
  exact Finset.notMem_empty p

-- ============================================================================
-- Deletion
-- ============================================================================

/-- A path whose deletion is pending. -/
structure Doomed (store : StoreDirConfig) (w : World) (p path : StorePath) (s : Collecting) :
    Prop extends Sparing store w p s where
  ne : p ≠ path
  pending : s.pending = some path.hashPart

theorem Doomed.others {path : StorePath} {s : Collecting} (h : Doomed store w p path s) :
    Doomed store w p path (s.afterOthers env) where
  toSparing := h.toSparing.others hadds
  ne := h.ne
  pending := h.pending

/-- What is invalidated is nothing that the root leads to. -/
theorem invalidate_spares (path : StorePath) :
    Spec (Doomed store w p path) (invalidate store env path)
      (fun _ s => Doomed store w p path s ∧ ¬ s.db.Valid (store.printStorePath path))
      (fun _ => Sparing store w p) := by
  refine Spec.seq (Q := fun _ => Doomed store w p path) (Spec.change fun s hs => hs.others hadds)
    fun _ => Spec.look fun s hs => ?_
  have hcall := @LocalStore.invalidatePathChecked_db store path s.toLocalStore
  refine Spec.seq (Q := fun _ t => (Doomed store w p path t ∧
    ¬ t.db.Valid (store.printStorePath path)) ∧ ¬ LeadsTo store s.db p path) ?_ fun _ => ?_
  · refine (callStore_run _ s).weaken (fun _ h => h) ?_ ?_
    · rintro _ _ ⟨t, hrun, rfl⟩
      have hdb : s.db.invalidatePath (store.printStorePath path) = .ok t.db :=
        hcall.of_ok rfl hrun
      have hnot : ¬ LeadsTo store s.db p path := LeadsTo.not_invalidated hs.ne hdb
      have hvalid := Db.valid_invalidate hdb
      refine ⟨⟨⟨⟨hs.root, hs.dead, ?_, fun r hr => ?_, hs.removals⟩, hs.ne, hs.pending⟩, ?_⟩, hnot⟩
      · exact (hvalid _).mpr ⟨hs.valid, fun heq => hs.ne (store.printStorePath_inj heq)⟩
      · exact (hs.leads r hr).invalidate hdb hnot
      · exact fun h => ((hvalid _).mp h).2 rfl
    · rintro _ _ ⟨e', t, rfl, hrun, rfl⟩
      exact hs.toSparing.of_db (hcall.of_error rfl hrun)
  · refine Spec.change fun t ht => ?_
    obtain ⟨⟨ht, hinvalid⟩, hnot⟩ := ht
    refine ⟨⟨⟨ht.root, ht.dead, ht.valid, ht.leads, fun e he => ?_⟩, ht.ne, ht.pending⟩, hinvalid⟩
    rcases List.mem_append.mp he with he | he
    · exact ht.removals e he
    · rw [List.mem_singleton.mp he]
      intro r hr
      rw [StorePath.ext' hr]
      exact ⟨fun h => hnot (hs.leads path h), hnot⟩

omit hadds in
/-- Neither is what is deleted. -/
theorem deleteFromStore_spares {name : Bytes} {J : Collecting → Prop}
    (hothers : ∀ s, J s → J (s.afterOthers env))
    (hresults : ∀ s results, J s → J { s with results })
    (hsparing : ∀ s, J s → Sparing store w p s)
    (hname : ∀ s, J s → ∀ r : StorePath, r.baseName = name → ¬ LeadsTo store s.db p r) :
    Spec J (deleteFromStore store env options name) (fun _ => Sparing store w p)
      (fun _ => Sparing store w p) := by
  unfold deleteFromStore
  refine Spec.cond (fun _ => Spec.ret hsparing) fun _ => ?_
  refine Spec.seq (Q := fun _ => J) (Spec.change fun s hs => hresults s _ hs) fun _ => ?_
  refine Spec.seq (Q := fun _ => Sparing store w p) ?_ fun _ => ?_
  · refine Spec.seq (Q := fun _ => J) (Spec.change hothers) fun _ => Spec.change fun s hs => ?_
    have hs' := hsparing s hs
    refine ⟨hs'.root, hs'.dead, hs'.valid, hs'.leads, fun e he => ?_⟩
    rcases List.mem_append.mp he with he | he
    · exact hs'.removals e he
    · rw [List.mem_singleton.mp he]
      intro r hr
      have hnot := hname s hs r hr
      exact ⟨fun h => hnot (hs'.leads r h), hnot⟩
  · refine Spec.seq (Q := fun _ => Sparing store w p) (Spec.change fun s hs =>
      ⟨hs.root, hs.dead, hs.valid, hs.leads, hs.removals⟩) fun _ => ?_
    exact Keeps.look fun s => Keeps.cond (Keeps.raise _) (Keeps.ret _)

theorem deleteUnused_spares (path : StorePath) :
    Spec (Doomed store w p path) (deleteUnused store env options path)
      (fun _ => Sparing store w p) (fun _ => Sparing store w p) := by
  refine orCatch_spec (E := fun _ => Sparing store w p) ?_ (fun _ _ hs _ => hs) fun _ _ hs _ => hs
  refine Spec.seq (invalidate_spares hadds path) fun _ => ?_
  refine Spec.seq (Q := fun _ => Sparing store w p) ?_ fun _ => Spec.change fun s hs =>
    ⟨hs.root, hs.dead, hs.valid, hs.leads, hs.removals⟩
  refine deleteFromStore_spares (J := fun s => Doomed store w p path s ∧
    ¬ s.db.Valid (store.printStorePath path)) ?_ ?_ (fun _ hs => hs.1.toSparing) ?_
  · exact fun s hs => ⟨hs.1.others hadds, hadds.blocked s path hs.1.pending hs.2⟩
  · rintro s results ⟨hs, hinvalid⟩
    exact ⟨⟨⟨hs.root, hs.dead, hs.valid, hs.leads, hs.removals⟩, hs.ne, hs.pending⟩, hinvalid⟩
  · rintro s ⟨hs, hinvalid⟩ r hr hleads
    rw [StorePath.ext' hr] at hleads
    obtain ⟨q, -, href⟩ := hleads.referrer hs.ne
    exact hinvalid href.valid.2

/-- The body of the loop over the visited paths. -/
theorem deleteVisited_spares {path : StorePath} (hne : p ≠ path) :
    Keeps (Sparing store w p) (deleteVisited store env options settings path) := by
  have hkept := sparing_kept (w := w) (p := p) hadds
  refine Keeps.seq (interfere_keeps hkept.others) fun _ => Keeps.look fun s => ?_
  refine Keeps.cond (Keeps.ret _) (Keeps.seq (Keeps.change fun s hs => ?_) fun _ => ?_)
  · refine ⟨hs.root, ?_, hs.valid, hs.leads, hs.removals⟩
    rw [Finset.mem_insert, not_or]
    exact ⟨hne, hs.dead⟩
  refine Keeps.cond (Keeps.seq (Keeps.change fun s hs =>
    ⟨hs.root, hs.dead, hs.valid, hs.leads, hs.removals⟩) fun _ => ?_) (Keeps.ret _)
  refine Spec.seq (Q := fun isRoot s => Sparing store w p s ∧
    (isRoot = false → s.pending = some path.hashPart)) ?_ fun isRoot => ?_
  · refine Spec.look fun s hs => Spec.cond (fun _ => Spec.ret ?_) fun _ => ?_
    · rintro _ rfl
      exact ⟨hs, nofun⟩
    · refine Spec.seq (Q := fun _ t => Sparing store w p t ∧ t.pending = some path.hashPart)
        (Spec.change ?_) fun _ => Spec.ret fun t ht => ⟨ht.1, fun _ => ht.2⟩
      rintro _ rfl
      exact ⟨⟨hs.root, hs.dead, hs.valid, hs.leads, hs.removals⟩, rfl⟩
  · refine Spec.cond (fun _ => ?_) fun hnot => ?_
    · exact (search_markAlive_keeps hkept path).weaken (fun _ h => h.1) (fun _ _ h => h)
        fun _ _ h => h
    · have hunused : Spec (Doomed store w p path) (deleteUnused store env options path)
          (fun _ => Sparing store w p) (fun _ => Sparing store w p) := deleteUnused_spares hadds path
      refine atEnd_spec (hunused.weaken ?_ ?_ ?_)
      · exact fun s hs => ⟨hs.1, hne, hs.2 (by simpa using hnot)⟩
      · exact fun _ s hs => ⟨hs.root, hs.dead, hs.valid, hs.leads, hs.removals⟩
      · exact fun _ s hs => ⟨hs.root, hs.dead, hs.valid, hs.leads, hs.removals⟩

theorem maybeDeleteReferrersClosure_spares (start : StorePath) :
    Keeps (Sparing store w p) (maybeDeleteReferrersClosure store env options settings start) := by
  have hkept := sparing_kept (w := w) (p := p) hadds
  refine atEnd_keeps (Keeps.seq (Keeps.change fun s hs =>
    ⟨hs.root, hs.dead, hs.valid, hs.leads, hs.removals⟩) fun _ => ?_) fun s hs =>
      ⟨hs.root, hs.dead, hs.valid, hs.leads, hs.removals⟩
  refine Spec.seq (search_spares hadds start) fun found => Spec.given fun hfound => ?_
  cases found with
  | none => exact Keeps.ret _
  | some visited =>
      refine Spec.seq (topoSortPaths_keeps hkept visited) fun sorted => Spec.given fun hsorted => ?_
      refine Keeps.loop fun path hpath => deleteVisited_spares hadds ?_
      rintro rfl
      exact hfound visited rfl (hsorted _ hpath)

/-- What the loops over names and paths do. -/
theorem deletePaths_spares (hnames : ∀ name ∈ env.readdir, 0x2f ∉ name) :
    Keeps (Sparing store w p) (deletePaths store env options settings) := by
  unfold deletePaths
  cases options.pathsToDelete with
  | specificPaths paths deleteReferrers =>
      refine Keeps.loop fun path _ => ?_
      refine Keeps.seq (maybeDeleteReferrersClosure_spares hadds path) fun _ => ?_
      exact Keeps.look fun s => Keeps.cond (Keeps.raise _) (Keeps.ret _)
  | wholeStore =>
      refine Keeps.cond (Keeps.ret _) (Keeps.cond (Keeps.raise _) (Keeps.loop fun name hname => ?_))
      refine Keeps.cond (Keeps.ret _) ?_
      cases hparse : store.maybeParseStorePath (store.text ++ ascii "/" ++ name) with
      | some path => exact maybeDeleteReferrersClosure_spares hadds path
      | none =>
          refine deleteFromStore_spares (fun s hs => hs.others hadds)
            (fun s _ hs => ⟨hs.root, hs.dead, hs.valid, hs.leads, hs.removals⟩) (fun _ hs => hs) ?_
          -- the name of a store path is parsed
          rintro s - r rfl -
          have hread := store.parseStorePath_component (r.normalComponent_baseName (hnames _ hname))
          rw [StoreDir.maybeParseStorePath, hread, r.ofBaseName_baseName] at hparse
          cases hparse

theorem finish_spares : Keeps (Sparing store w p) (finish store env options) := by
  have hresults : ∀ f : Collecting → GCResults, Keeps (Sparing store w p)
      (update fun s => { s with results := f s }) := fun f =>
    Keeps.change fun s hs => ⟨hs.root, hs.dead, hs.valid, hs.leads, hs.removals⟩
  have hlinks : Keeps (Sparing store w p) (env.readdirLinks.forM (deleteLink env)) :=
    Keeps.loop fun name _ => Keeps.cond (Keeps.ret _) (Keeps.seq (interfere_keeps fun s hs =>
      hs.others hadds) fun _ => Keeps.change fun s hs =>
        ⟨hs.root, hs.dead, hs.valid, hs.leads, hs.removals⟩)
  unfold finish
  cases options.action with
  | gcReturnLive => exact hresults _
  | gcReturnDead => exact hresults _
  | gcDeleteDead => exact hlinks
  | gcDeleteSpecific => exact hlinks

end Search

-- ============================================================================
-- The collection
-- ============================================================================

/-- A collection removes nothing that the target of a link leads to which was
    there when it began, unless the process remembers that the target is not
    valid. -/
theorem collectGarbage_spares_roots {cache : LruCache StorePath (Option ValidPathInfo)}
    (hadds : OnlyAdds store env) (hnames : ∀ name ∈ env.readdir, 0x2f ∉ name)
    (hlive : options.ignoreLiveness = false) (hlink : HeldLink env w link target)
    (htarget : store.toStorePath target = .ok p) (hvalid : w.db.Valid (store.printStorePath p))
    (hcache : cache.find p ≠ some none) :
    ∀ e ∈ (final (collectGarbage store env options settings) (start w cache)).removals,
      ∀ r : StorePath, r.baseName = e.1 → ¬ LeadsTo store w.db p r ∧ ¬ LeadsTo store e.2 p r := by
  have hstart : Seeking store w p link target False (start w cache) :=
    ⟨⟨hvalid, hcache⟩, hlink.there, nofun, fun _ h => h, rfl, rfl⟩
  refine Spec.final_of (I := fun s : Collecting => ∀ e ∈ s.removals, ∀ r : StorePath,
    r.baseName = e.1 → ¬ LeadsTo store w.db p r ∧ ¬ LeadsTo store e.2 p r) ?_
  unfold collectGarbage
  refine Spec.cond (fun _ => Spec.ret ?_) fun _ => ?_
  · rintro _ rfl e he
    exact absurd he List.not_mem_nil
  rw [hlive]
  refine Spec.seq ((findAllRoots_seeks hadds hlink htarget).weaken (fun s hs => hs ▸ hstart)
    (fun _ _ h => h) ?_) fun _ => ?_
  · intro e s hs e' he'
    rw [hs] at he'
    exact absurd he' List.not_mem_nil
  · have hend : Keeps (Sparing store w p) (do
        orCatch isLimitReached (deletePaths store env options settings)
        finish store env options) :=
      Keeps.seq (orCatch_keeps (deletePaths_spares hadds hnames)) fun _ => finish_spares hadds
    exact hend.weaken (fun _ hs => hs.sparing) (fun _ _ hs => hs.removals) fun _ _ hs =>
      hs.removals

end Collecting

namespace Collecting

namespace Sample

/-- What a process remembers that has asked for the path before it was valid. -/
def askedEarly : LruCache StorePath (Option ValidPathInfo) :=
  (final (LocalStore.queryPathInfo LocalStore.Sample.store LocalStore.Sample.pathA)
    (LocalStore.fresh 10)).pathInfoCache

theorem linked_onlyAdds : OnlyAdds LocalStore.Sample.store linked where
  valid := fun _ _ h => h
  refers := fun _ _ _ h => h
  blocked := fun _ _ _ h => h

theorem rooted_heldLink : HeldLink linked rooted rootLink
    (LocalStore.Sample.store.printStorePath LocalStore.Sample.pathA) where
  listed := List.mem_singleton.mpr rfl
  there := by decide +kernel
  lasts := fun _ h => h

end Sample

open LocalStore.Sample (store pathA)
open DiskStore.Sample (nameA)
open Sample

/-- The process has not asked for anything: the root stays. -/
theorem collectGarbage_spares_rooted :
    (OnlyAdds store linked ∧
      HeldLink linked rooted rootLink (store.printStorePath pathA) ∧
      rooted.db.Valid (store.printStorePath pathA)) ∧
    ∀ e ∈ (final (collectGarbage store linked {} {}) (start rooted (LruCache.empty 10))).removals,
      ∀ r : StorePath, r.baseName = e.1 →
        ¬ LeadsTo store rooted.db pathA r ∧ ¬ LeadsTo store e.2 pathA r := by
  refine ⟨⟨linked_onlyAdds, rooted_heldLink, ⟨_, List.mem_cons_self, rfl⟩⟩, ?_⟩
  refine collectGarbage_spares_roots linked_onlyAdds ?_ rfl rooted_heldLink ?_ ?_ nofun
  · decide +kernel
  · decide +kernel
  · exact ⟨_, List.mem_cons_self, rfl⟩

/-- The process has asked for the path before it was added and became a root: it
    is dropped from the database and deleted. -/
theorem collectGarbage_removes_rooted :
    (OnlyAdds store linked ∧
      HeldLink linked rooted rootLink (store.printStorePath pathA) ∧
      rooted.db.Valid (store.printStorePath pathA)) ∧
    ¬ ∀ e ∈ (final (collectGarbage store linked {} {}) (start rooted askedEarly)).removals,
      ∀ r : StorePath, r.baseName = e.1 →
        ¬ LeadsTo store rooted.db pathA r ∧ ¬ LeadsTo store e.2 pathA r := by
  refine ⟨⟨linked_onlyAdds, rooted_heldLink, ⟨_, List.mem_cons_self, rfl⟩⟩, ?_⟩
  intro h
  have hremoved : ∃ e ∈ (final (collectGarbage store linked {} {})
      (start rooted askedEarly)).removals, e.1 = pathA.baseName := by decide +kernel
  obtain ⟨e, he, hname⟩ := hremoved
  exact (h e he pathA hname.symm).1 ReflTransGen.refl

end Collecting

end NixStore
