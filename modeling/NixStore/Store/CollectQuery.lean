/-
  NixStore.Store.CollectQuery

  What `collectGarbage` does to the store when it is only asked which paths are
  alive or dead.

  A search only reads, and `shouldDelete` guards the loop behind it.  The loop
  over the store directory has no such guard in front of the names that are not
  store paths: it deletes those entries whatever the action is
  (`collectGarbage_query_iff`).
-/

import NixStore.Store.CollectGarbage

namespace NixStore

open Effect OrderedSet Wire

namespace LocalStore

variable (store : StoreDirConfig)

-- ============================================================================
-- Queries
-- ============================================================================

theorem pathReferences_db (db : Db) (path : StorePath) :
    Keeps (fun t : LocalStore => t.db = db) (pathReferences store path) :=
  orInvalid_spec (Keeps.seq (queryPathInfo_db store db path) fun _ => Keeps.ret _) fun _ _ h => h

end LocalStore

namespace Collecting

variable {store : StoreDirConfig} {env : Surroundings} {I : Collecting → Prop}

-- ============================================================================
-- Invariants of the steps
-- ============================================================================

theorem interfere_keeps (h : ∀ s, I s → I (s.afterOthers env)) : Keeps I (interfere env) := h

theorem callStore_run {α : Type} (x : StoreM α) (s : Collecting) :
    Run s (callStore x)
      (fun a s' => ∃ t, x s.toLocalStore = .ok a t ∧ s' = s.setLocalStore t)
      (fun e s' => ∃ e' t, e = .error e' ∧ x s.toLocalStore = .error e' t ∧
        s' = s.setLocalStore t) := by
  rintro _ rfl
  rename_i s
  unfold callStore
  cases x s.toLocalStore with
  | ok a t => exact ⟨t, rfl, rfl⟩
  | error e t => exact ⟨e, t, rfl, rfl, rfl⟩

/-- A call keeps what depends on the store alone as the call keeps it. -/
theorem callStore_keeps {α : Type} {x : StoreM α} {J : LocalStore → Prop} (h : Keeps J x)
    (hin : ∀ s, I s → J s.toLocalStore)
    (hout : ∀ s t, I s → J t → I (s.setLocalStore t)) : Keeps I (callStore x) := by
  intro s hs
  have hrun := h s.toLocalStore (hin s hs)
  unfold callStore
  cases hx : x s.toLocalStore with
  | ok a t =>
      rw [hx] at hrun
      exact hout s t hs hrun
  | error e t =>
      rw [hx] at hrun
      exact hout s t hs hrun

theorem orThrow_keeps {α : Type} (x : Except Error α) : Keeps I (orThrow x) := by
  intro s hs
  cases x with
  | ok a => exact hs
  | error e => exact hs

theorem orCatch_spec {P : Collecting → Prop} {Q : Unit → Collecting → Prop}
    {E E' : GCThrow → Collecting → Prop} {caught : GCThrow → Bool} {x : CollectM Unit}
    (h : Spec P x Q E) (hcaught : ∀ e s, E e s → caught e = true → Q () s)
    (hthrown : ∀ e s, E e s → caught e = false → E' e s) : Spec P (orCatch caught x) Q E' := by
  intro s hs
  have hrun := h s hs
  unfold orCatch
  cases hx : x s with
  | ok u s' =>
      rw [hx] at hrun
      exact hrun
  | error e s' =>
      rw [hx] at hrun
      dsimp only
      by_cases hc : caught e = true
      · rw [if_pos hc]
        exact hcaught e s' hrun hc
      · rw [if_neg hc]
        exact hthrown e s' hrun (by simpa using hc)

theorem orCatch_keeps {caught : GCThrow → Bool} {x : CollectM Unit} (h : Keeps I x) :
    Keeps I (orCatch caught x) := orCatch_spec h (fun _ _ hs _ => hs) fun _ _ hs _ => hs

theorem atEnd_spec {P : Collecting → Prop} {Q : Unit → Collecting → Prop}
    {E : GCThrow → Collecting → Prop} {f : Collecting → Collecting} {x : CollectM Unit}
    (h : Spec P x (fun u s => Q u (f s)) (fun e s => E e (f s))) : Spec P (atEnd f x) Q E := by
  intro s hs
  have hrun := h s hs
  unfold atEnd
  cases hx : x s with
  | ok u s' =>
      rw [hx] at hrun
      exact hrun
  | error e s' =>
      rw [hx] at hrun
      exact hrun

theorem atEnd_keeps {f : Collecting → Collecting} {x : CollectM Unit} (h : Keeps I x)
    (hf : ∀ s, I s → I (f s)) : Keeps I (atEnd f x) :=
  atEnd_spec (h.weaken (fun _ hs => hs) (fun _ _ hs => hf _ hs) fun _ _ hs => hf _ hs)

-- ============================================================================
-- Invariants of closures
-- ============================================================================

variable (store env I) in
/-- What a closure asks the store for keeps a property. -/
structure KeptByQueries : Prop where
  others : ∀ s, I s → I (s.afterOthers env)
  isValidPath : ∀ path, Keeps I (callStore (LocalStore.isValidPath store path))
  queryPathInfo : ∀ path, Keeps I (callStore (LocalStore.queryPathInfo store path))

theorem onStore_keeps {α : Type} {x : StoreM α} (hothers : ∀ s, I s → I (s.afterOthers env))
    (h : Keeps I (callStore x)) : Keeps I (onStore env x) :=
  Keeps.seq (interfere_keeps hothers) fun _ => h

theorem queryDeps_keeps (h : KeptByQueries store env I) (includeDerivers : Bool)
    (path : StorePath) : Keeps I (queryDeps store env includeDerivers path) := by
  refine Keeps.seq (onStore_keeps h.others (h.queryPathInfo path)) fun info => ?_
  cases info.deriver with
  | none => exact Keeps.ret _
  | some deriver =>
      refine Keeps.cond ?_ (Keeps.ret _)
      refine Keeps.seq (onStore_keeps h.others (h.isValidPath deriver)) fun valid => ?_
      exact Keeps.cond (Keeps.ret _) (Keeps.ret _)

theorem drain_keeps {getEdges : StorePath → CollectM (Finset StorePath)}
    (h : ∀ path, Keeps I (getEdges path)) (todo : List StorePath) : Keeps I (drain getEdges todo) :=
  Keeps.loop fun path _ => orCatch_keeps (Keeps.seq (h path) fun _ => Keeps.ret _)

theorem closureWorkers_keeps {getEdges : StorePath → CollectM (Finset StorePath)}
    (h : ∀ path, Keeps I (getEdges path)) (bound : Nat) (res : Finset StorePath)
    (todo : List StorePath) : Keeps I (closureWorkers getEdges bound res todo) := by
  induction bound generalizing res todo with
  | zero =>
      cases todo with
      | nil => exact Keeps.ret _
      | cons path todo => exact Keeps.ret _
  | succ bound ih =>
      cases todo with
      | nil => exact Keeps.ret _
      | cons path todo =>
          intro s hs
          have hrun := h path s hs
          unfold closureWorkers
          cases hx : getEdges path s with
          | ok edges s' =>
              rw [hx] at hrun
              exact ih _ _ s' hrun
          | error e s' =>
              rw [hx] at hrun
              exact Keeps.seq (drain_keeps h todo) (fun _ => Keeps.raise e) s' hrun

theorem markAlive_keeps (h : KeptByQueries store env I)
    (halive : ∀ s paths, I s → I { s with alive := paths ∪ s.alive }) (options : GCOptions)
    (settings : GCSettings) (path : StorePath) :
    Keeps I (markAlive store env options settings path) := by
  refine Keeps.seq (Keeps.change fun s hs => halive s _ hs) fun _ => orCatch_keeps ?_
  refine Keeps.seq (closureWorkers_keeps (queryDeps_keeps h _) _ _ _) fun closure => ?_
  exact Keeps.change fun s hs => halive s _ hs

-- ============================================================================
-- Invariants of the search for referrers
-- ============================================================================

variable (store env I) in
/-- What the search for referrers does keeps a property. -/
structure KeptBySearch : Prop extends KeptByQueries store env I where
  query : ∀ read : Db → Except Error (Finset StorePath),
    Keeps I (callStore (LocalStore.onDb fun db => (read db).map (·, db)))
  pathReferences : ∀ path, Keeps I (callStore (LocalStore.pathReferences store path))
  searchState : ∀ s alive referrersCache pending passed, I s →
    I { s with alive, referrersCache, pending, passed }

section Search

variable {options : GCOptions} {settings : GCSettings} (h : KeptBySearch store env I)
include h

theorem addAlive_keeps (paths : Finset StorePath) : Keeps I (addAlive paths) :=
  Keeps.change fun s hs => h.searchState s (paths ∪ s.alive) s.referrersCache s.pending s.passed hs

theorem search_markAlive_keeps (path : StorePath) :
    Keeps I (markAlive store env options settings path) :=
  markAlive_keeps h.toKeptByQueries (fun s paths hs => addAlive_keeps h paths s hs) options settings
    path

theorem cachedReferrers_keeps (path : StorePath) : Keeps I (cachedReferrers store env path) := by
  refine Keeps.look fun t => ?_
  cases t.referrersCache path with
  | some referrers => exact Keeps.ret _
  | none =>
      refine Keeps.seq (onStore_keeps h.others (h.query _)) fun referrers => ?_
      refine Keeps.seq (Keeps.change fun s hs => ?_) fun _ => Keeps.ret _
      exact h.searchState s s.alive _ s.pending s.passed hs

theorem nextPaths_keeps (path : StorePath) :
    Keeps I (nextPaths store env options settings path) := by
  refine Keeps.seq (onStore_keeps h.others (h.isValidPath path)) fun valid => ?_
  refine Keeps.cond (Keeps.seq (cachedReferrers_keeps h path) fun referrers => ?_) (Keeps.ret _)
  exact Keeps.cond (Keeps.seq (onStore_keeps h.others (h.query _)) fun _ => Keeps.ret _)
    (Keeps.ret _)

theorem checkTempRoot_keeps (path : StorePath) : Keeps I (checkTempRoot env path) := by
  refine Keeps.seq (interfere_keeps h.others) fun _ => Keeps.look fun t => ?_
  refine Keeps.cond (Keeps.ret _) (Keeps.seq (Keeps.change fun s hs => ?_) fun _ => Keeps.ret _)
  exact h.searchState s s.alive s.referrersCache _ _ hs

theorem visitPath_keeps (start path : StorePath) :
    Keeps I (visitPath store env options settings start path) := by
  have hgiveUp : Keeps I (do
      addAlive {start}
      markAlive store env options settings path
      pure Visit.giveUp) :=
    Keeps.seq (addAlive_keeps h _) fun _ =>
      Keeps.seq (search_markAlive_keeps h path) fun _ => Keeps.ret _
  refine Keeps.look fun t => Keeps.cond ?_ (Keeps.cond (Keeps.ret _) (Keeps.cond hgiveUp
    (Keeps.cond (Keeps.ret _) ?_)))
  · exact Keeps.seq (addAlive_keeps h _) fun _ => Keeps.ret _
  · refine Keeps.seq (checkTempRoot_keeps h path) fun isRoot => Keeps.cond hgiveUp ?_
    exact Keeps.seq (nextPaths_keeps h path) fun _ => Keeps.ret _

theorem search_keeps (start : StorePath) (bound : Nat) (visited : Finset StorePath)
    (todo : List StorePath) :
    Keeps I (search store env options settings start bound visited todo) := by
  induction bound generalizing visited todo with
  | zero =>
      cases todo with
      | nil => exact Keeps.ret _
      | cons path todo => exact Keeps.ret _
  | succ bound ih =>
      cases todo with
      | nil => exact Keeps.ret _
      | cons path todo =>
          refine Keeps.seq (visitPath_keeps h start path) fun visit => ?_
          cases visit with
          | giveUp => exact Keeps.ret _
          | enqueue sets => exact ih _ _

/-- The sorted paths are the paths. -/
theorem topoSortPaths_keeps (paths : Finset StorePath) :
    Spec I (topoSortPaths store env paths) (fun sorted s => I s ∧ ∀ q ∈ sorted, q ∈ paths)
      (fun _ s => I s) := by
  have hsort : Spec I (TopoSort.topoSort paths (pathReferences store env)) _ fun _ s => I s :=
    TopoSort.topoSort_spec (fun _ _ => False) (fun _ _ => True) (by
      intro path _
      refine (onStore_keeps h.others (h.pathReferences path)).weaken (fun _ h => h) ?_
        fun _ _ h => h
      exact fun _ _ h => ⟨h, fun _ _ => trivial, fun _ h => h.elim⟩)
  refine Spec.seq hsort fun r => Spec.given fun hr => ?_
  cases r with
  | error c => exact Spec.raise fun _ hs => hs
  | ok sorted => exact Spec.ret fun s hs => ⟨hs, fun q hq => (hr.mem_iff q).mp hq⟩

end Search

-- ============================================================================
-- Invariants of the search for roots
-- ============================================================================

variable (store env I) in
/-- What the search for roots does keeps a property, as long as it unlinks only
    some of the links. -/
structure KeptByRoots (removable : List Bytes → Prop) : Prop where
  others : ∀ s, I s → I (s.afterOthers env)
  isValidPath : ∀ path, Keeps I (callStore (LocalStore.isValidPath store path))
  unlink : ∀ s path, removable path → I s →
    I { s with outside := Function.update s.outside path none }
  root : ∀ s path, I s → I { s with roots := insert path s.roots }
  tempRoot : ∀ s path, I s →
    I { s with tempRoots := insert path.hashPart s.tempRoots, roots := insert path s.roots }

section Roots

variable {removable : List Bytes → Prop} (h : KeptByRoots store env I removable)
include h

theorem addRootIfValid_keeps (path : StorePath) : Keeps I (addRootIfValid store env path) := by
  refine Keeps.seq (onStore_keeps h.others (h.isValidPath path)) fun valid => ?_
  exact Keeps.cond (Keeps.change fun s hs => h.root s path hs) (Keeps.ret _)

theorem foundRoot_keeps (target : Bytes) : Keeps I (foundRoot store env target) := by
  unfold foundRoot
  split
  · exact addRootIfValid_keeps h _
  · exact Keeps.ret _
  · exact Keeps.raise _

theorem findIndirectRoot_keeps {path : List Bytes} (hpath : removable path)
    (target : List Bytes) : Keeps I (findIndirectRoot store env path target) := by
  refine Keeps.seq (interfere_keeps h.others) fun _ => Keeps.look fun t => ?_
  split
  · exact Keeps.cond (Keeps.change fun s hs => h.unlink s _ hpath hs) (Keeps.ret _)
  · exact Keeps.cond (foundRoot_keeps h _) (Keeps.ret _)
  · exact Keeps.ret _

theorem findRoot_keeps {path : List Bytes} (hpath : removable path) :
    Keeps I (findRoot store env path) := by
  refine Keeps.seq (interfere_keeps h.others) fun _ => Keeps.look fun t => ?_
  split
  · refine Keeps.cond (foundRoot_keeps h _) ?_
    exact Keeps.seq (orThrow_keeps _) fun _ => findIndirectRoot_keeps h hpath _
  · split
    · exact addRootIfValid_keeps h _
    · exact Keeps.ret _
  · exact Keeps.ret _

theorem findAllRoots_keeps (hall : ∀ path ∈ env.rootPaths, removable path)
    (ignoreLiveness : Bool) : Keeps I (findAllRoots store env ignoreLiveness) := by
  have htemp : Keeps I (do
      let tempRoots ← orThrow (findTempRoots store env)
      tempRoots.forM (addTempRoot env)) :=
    Keeps.seq (orThrow_keeps _) fun _ => Keeps.loop fun path _ =>
      Keeps.seq (interfere_keeps h.others) fun _ => Keeps.change fun s hs => h.tempRoot s path hs
  have hroots : Keeps I (findRootsNoTemp store env) :=
    Keeps.seq (Keeps.loop fun path hpath => findRoot_keeps h (hall path hpath)) fun _ =>
      Keeps.loop fun path _ => addRootIfValid_keeps h path
  exact Keeps.cond (c := ignoreLiveness = false) (Keeps.seq hroots fun _ => htemp) htemp

end Roots

end Collecting

-- ============================================================================
-- The store during a search
-- ============================================================================

/-- What a collection changes: the rows of the database, and the entries of the
    store directory and of `.links`. -/
def World.storePart (w : World) : Db × (Finmap fun _ : FileName => File) × Finset FileName :=
  (w.db, w.files, w.links)

namespace Collecting

variable {store : StoreDirConfig} {env : Surroundings} {options : GCOptions}
  {settings : GCSettings}

variable (env) in
/-- The others leave the store alone. -/
def LeavesStore : Prop := ∀ s, (env.others s).storePart = s.toWorld.storePart

/-- A program does not change the store. -/
abbrev OnlyReads {α : Type} (x : CollectM α) : Prop :=
  ∀ part, Keeps (fun s => s.toWorld.storePart = part) x

theorem callStore_reads {α : Type} {x : StoreM α}
    (h : ∀ db, Keeps (fun t : LocalStore => t.db = db) x) : OnlyReads (callStore x) := by
  intro part
  refine callStore_keeps (h part.1) (fun s hs => congrArg Prod.fst hs) fun s t hs ht => ?_
  show (t.db, s.files, s.links) = part
  rw [ht, ← hs]
  rfl

theorem update_reads {f : Collecting → Collecting}
    (h : ∀ s, (f s).toWorld.storePart = s.toWorld.storePart) : OnlyReads (update f) :=
  fun _ => Keeps.change fun s hs => (h s).trans hs

section Search

variable (hothers : LeavesStore env)
include hothers

theorem interfere_reads : OnlyReads (interfere env) :=
  fun _ => interfere_keeps fun s hs => (hothers s).trans hs

theorem queries_read (part : Db × (Finmap fun _ : FileName => File) × Finset FileName) :
    KeptByQueries store env fun s => s.toWorld.storePart = part where
  others := fun s hs => (hothers s).trans hs
  isValidPath := fun path => callStore_reads (fun db => LocalStore.isValidPath_db store db path) part
  queryPathInfo := fun path =>
    callStore_reads (fun db => LocalStore.queryPathInfo_db store db path) part

theorem searches_read (part : Db × (Finmap fun _ : FileName => File) × Finset FileName) :
    KeptBySearch store env fun s => s.toWorld.storePart = part where
  toKeptByQueries := queries_read hothers part
  query := fun _ => callStore_reads (fun db => LocalStore.query_db db _) part
  pathReferences := fun path =>
    callStore_reads (fun db => LocalStore.pathReferences_db store db path) part
  searchState := fun _ _ _ _ _ hs => hs

/-- Nothing is deleted when nothing is to be deleted. -/
theorem deleteVisited_reads (hdelete : options.shouldDelete = false) (path : StorePath) :
    OnlyReads (deleteVisited store env options settings path) := by
  intro part
  refine Keeps.seq (interfere_reads hothers part) fun _ => Keeps.look fun t => ?_
  refine Keeps.cond (Keeps.ret _) (Keeps.seq (update_reads (fun _ => rfl) part) fun _ => ?_)
  rw [hdelete]
  exact Keeps.ret _

theorem maybeDeleteReferrersClosure_reads (hdelete : options.shouldDelete = false)
    (start : StorePath) :
    OnlyReads (maybeDeleteReferrersClosure store env options settings start) := by
  intro part
  refine atEnd_keeps (Keeps.seq (update_reads (fun _ => rfl) part) fun _ => ?_) fun _ hs => hs
  refine Keeps.seq (search_keeps (searches_read hothers part) start _ _ _) fun visited => ?_
  cases visited with
  | none => exact Keeps.ret _
  | some visited =>
      refine Keeps.seq ((topoSortPaths_keeps (searches_read hothers part) visited).weaken
        (fun _ h => h) (fun _ _ h => h.1) fun _ _ h => h) fun sorted => ?_
      exact Keeps.loop fun path _ => deleteVisited_reads hothers hdelete path part

theorem roots_read (part : Db × (Finmap fun _ : FileName => File) × Finset FileName) :
    KeptByRoots store env (fun s => s.toWorld.storePart = part) fun _ => True where
  others := fun s hs => (hothers s).trans hs
  isValidPath := fun path => callStore_reads (fun db => LocalStore.isValidPath_db store db path) part
  unlink := fun _ _ _ hs => hs
  root := fun _ _ hs => hs
  tempRoot := fun _ _ hs => hs

theorem findAllRoots_reads (ignoreLiveness : Bool) :
    OnlyReads (findAllRoots store env ignoreLiveness) := fun part =>
  findAllRoots_keeps (roots_read hothers part) (fun _ _ => trivial) ignoreLiveness

theorem deleteSpecific_reads (hdelete : options.shouldDelete = false) (path : StorePath) :
    OnlyReads (deleteSpecific store env options settings path) := by
  intro part
  refine Keeps.seq (maybeDeleteReferrersClosure_reads hothers hdelete path part) fun _ => ?_
  exact Keeps.look fun t => Keeps.cond (Keeps.raise _) (Keeps.ret _)

end Search

-- ============================================================================
-- Entries that are not store paths
-- ============================================================================

variable (store env) in
/-- The loop over the store directory deletes an entry with this name without
    looking at the action. -/
structure Unguarded (name : Bytes) : Prop where
  ne_dot : name ≠ ascii "."
  ne_dotdot : name ≠ ascii ".."
  ne_links : name ≠ linksName
  not_storePath : store.maybeParseStorePath (store.text ++ ascii "/" ++ name) = none
  not_locked : lockedTempDir env name = false

/-- A name is in the store directory. -/
def HasEntry (files : Finmap fun _ : FileName => File) (name : Bytes) : Prop :=
  ∃ h : ¬ invalidName name, (⟨name, h⟩ : FileName) ∈ files

theorem deleteEntry_unguarded {name : Bytes} (h : Unguarded store env name) :
    deleteEntry store env options settings name = deleteFromStore store env options name := by
  unfold deleteEntry
  rw [if_neg, h.not_storePath]
  rintro (h' | h' | h')
  · exact h.ne_dot h'
  · exact h.ne_dotdot h'
  · exact h.ne_links h'

theorem deleteEntry_guarded (hothers : LeavesStore env) (hdelete : options.shouldDelete = false)
    {name : Bytes} (h : ¬ Unguarded store env name) :
    OnlyReads (deleteEntry store env options settings name) := by
  intro part
  unfold deleteEntry
  by_cases hskip : name = ascii "." ∨ name = ascii ".." ∨ name = linksName
  · rw [if_pos hskip]
    exact Keeps.ret _
  rw [if_neg hskip]
  cases hparse : store.maybeParseStorePath (store.text ++ ascii "/" ++ name) with
  | some path => exact maybeDeleteReferrersClosure_reads hothers hdelete path part
  | none =>
      -- what is neither skipped nor a store path is a locked temporary directory
      have hlocked : lockedTempDir env name = true := by
        by_contra hlocked
        exact h ⟨fun h' => hskip (.inl h'), fun h' => hskip (.inr (.inl h')),
          fun h' => hskip (.inr (.inr h')), hparse, by simpa using hlocked⟩
      show Keeps _ (deleteFromStore store env options name)
      rw [deleteFromStore, if_pos hlocked]
      exact Keeps.ret _

/-- After an unlocked name has been deleted it is not there. -/
theorem deleteFromStore_deletes {name : Bytes} (h : lockedTempDir env name = false) :
    Spec (fun _ => True) (deleteFromStore store env options name)
      (fun _ s => ¬ HasEntry s.files name) (fun _ s => ¬ HasEntry s.files name) := by
  rw [deleteFromStore, if_neg (by rw [h]; exact Bool.false_ne_true)]
  refine Spec.seq (Q := fun _ _ => True) (Spec.change fun _ _ => trivial) fun _ => ?_
  refine Spec.seq (Q := fun _ s => ¬ HasEntry s.files name) ?_ fun _ => ?_
  · refine Spec.seq (Q := fun _ _ => True) (fun _ _ => trivial) fun _ => Spec.change fun s _ => ?_
    rintro ⟨hname, hmem⟩
    dsimp only at hmem
    rw [dif_neg hname] at hmem
    exact Finmap.notMem_erase_self hmem
  · refine Spec.seq (Q := fun _ s => ¬ HasEntry s.files name) (Spec.change fun s hs => hs) ?_
    exact fun _ => Keeps.look fun t => Keeps.cond (Keeps.raise _) (Keeps.ret _)

/-- Deleting other entries does not bring it back. -/
theorem deleteFromStore_keeps_absent (hothers : LeavesStore env) (name other : Bytes) :
    Keeps (fun s => ¬ HasEntry s.files name) (deleteFromStore store env options other) := by
  refine Keeps.cond (Keeps.ret _) (Keeps.seq (Keeps.change fun _ hs => hs) fun _ => ?_)
  refine Keeps.seq (Keeps.seq (interfere_keeps ?_) fun _ => Keeps.change ?_) fun _ => ?_
  · intro s hs
    have hfiles : (env.others s).files = s.files := congrArg (fun p => p.2.1) (hothers s)
    show ¬ HasEntry (env.others s).files name
    rw [hfiles]
    exact hs
  · rintro s hs ⟨hname, hmem⟩
    refine hs ⟨hname, ?_⟩
    dsimp only at hmem
    split at hmem
    · exact hmem
    · exact (Finmap.mem_erase.mp hmem).2
  · refine Keeps.seq (Keeps.change fun _ hs => hs) fun _ => ?_
    exact Keeps.look fun t => Keeps.cond (Keeps.raise _) (Keeps.ret _)

theorem reads_keeps_absent {α : Type} {x : CollectM α} (h : OnlyReads x) (name : Bytes) :
    Keeps (fun s => ¬ HasEntry s.files name) x := by
  let J := fun part : Db × (Finmap fun _ : FileName => File) × Finset FileName =>
    ¬ HasEntry part.2.1 name
  show Keeps (fun s => J s.toWorld.storePart) x
  exact Keeps.of_part h

theorem deleteEntry_keeps_absent (hothers : LeavesStore env)
    (hdelete : options.shouldDelete = false) (name other : Bytes) :
    Keeps (fun s => ¬ HasEntry s.files name) (deleteEntry store env options settings other) := by
  by_cases h : Unguarded store env other
  · rw [deleteEntry_unguarded h]
    exact deleteFromStore_keeps_absent hothers name other
  · exact reads_keeps_absent (deleteEntry_guarded hothers hdelete h) name

-- ============================================================================
-- The collection
-- ============================================================================

/-- What is asked for is an answer. -/
def IsQuery (options : GCOptions) : Prop :=
  options.action = .gcReturnDead ∨ options.action = .gcReturnLive

theorem IsQuery.shouldDelete (h : IsQuery options) : options.shouldDelete = false := by
  unfold GCOptions.shouldDelete
  rcases h with h | h
  · rw [h]
    rfl
  · rw [h]
    rfl

theorem finish_reads (h : IsQuery options) : OnlyReads (finish store env options) := by
  intro part
  unfold finish
  rcases h with h | h
  · rw [h]
    exact update_reads (fun _ => rfl) part
  · rw [h]
    exact update_reads (fun _ => rfl) part

variable (store env options) in
/-- The loop over the store directory, if there is one, finds only names that it
    skips, names of store paths, and `tmp-` names that cannot be locked. -/
def OnlyGuarded : Prop :=
  options.pathsToDelete = .wholeStore → options.maxFreed ≠ 0 →
  ∀ name ∈ env.readdir, ¬ Unguarded store env name

variable (store env options settings) in
/-- An exception ends the call before the loop comes to the first other name. -/
def ThrowsFirst (s : Collecting) : Prop :=
  ∀ front name rest, env.readdir = front ++ name :: rest → Unguarded store env name →
    ∃ e s', (do
      findAllRoots store env options.ignoreLiveness
      front.forM (deleteEntry store env options settings)) s = .error e s'

theorem GCOptions.not_nothingToDelete (hpaths : options.pathsToDelete = .wholeStore) :
    ¬ options.nothingToDelete = true := by
  rw [GCOptions.nothingToDelete, hpaths]
  exact Bool.false_ne_true

theorem deletePaths_reads (hothers : LeavesStore env) (h : IsQuery options)
    (honly : OnlyGuarded store env options) :
    OnlyReads (deletePaths store env options settings) := by
  intro part
  unfold deletePaths
  cases hpaths : options.pathsToDelete with
  | specificPaths paths deleteReferrers =>
      exact Keeps.loop fun path _ => deleteSpecific_reads hothers h.shouldDelete path part
  | wholeStore =>
      refine Spec.cond (fun _ => Keeps.ret _) fun hmax => Keeps.cond (Keeps.raise _) ?_
      exact Keeps.loop fun name hname =>
        deleteEntry_guarded hothers h.shouldDelete (honly hpaths hmax name hname) part

theorem deletePaths_wholeStore (h : IsQuery options) (hpaths : options.pathsToDelete = .wholeStore)
    (hmax : options.maxFreed ≠ 0) :
    deletePaths store env options settings =
      env.readdir.forM (deleteEntry store env options settings) := by
  have haction : options.action ≠ .gcDeleteSpecific := by
    rcases h with h | h
    · rw [h]
      decide
    · rw [h]
      decide
  unfold deletePaths
  rw [hpaths]
  show (if _ then _ else if _ then _ else _ : CollectM Unit) = _
  rw [if_neg hmax, if_neg haction]

/-- Once the loop has come to such an entry, the entry is gone. -/
theorem deletePaths_removes {front : List Bytes} {name : Bytes} {rest : List Bytes}
    {s s' : Collecting} (hothers : LeavesStore env) (h : IsQuery options)
    (hpaths : options.pathsToDelete = .wholeStore) (hmax : options.maxFreed ≠ 0)
    (hread : env.readdir = front ++ name :: rest) (hname : Unguarded store env name)
    (hrun : front.forM (deleteEntry store env options settings) s = .ok ⟨⟩ s') :
    Run s (deletePaths store env options settings) (fun _ t => ¬ HasEntry t.files name)
      (fun _ t => ¬ HasEntry t.files name) := by
  have hrest : Run s' ((name :: rest).forM (deleteEntry store env options settings))
      (fun _ t => ¬ HasEntry t.files name) (fun _ t => ¬ HasEntry t.files name) := by
    refine Spec.seq (Q := fun _ t => ¬ HasEntry t.files name) ?_ fun _ =>
      Keeps.loop fun other _ => deleteEntry_keeps_absent hothers h.shouldDelete name other
    rw [deleteEntry_unguarded hname]
    exact (deleteFromStore_deletes hname.not_locked).weaken (fun _ _ => trivial)
      (fun _ _ h => h) fun _ _ h => h
  rw [deletePaths_wholeStore h hpaths hmax, hread, forM_append]
  rintro _ rfl
  rw [bind_of_ok hrun]
  exact hrest s' rfl

/-- What the loop leaves as it was, a query leaves as it was. -/
theorem collectGarbage_reads (hothers : LeavesStore env) (h : IsQuery options) {s : Collecting}
    (hdelete : ∀ s₁, findAllRoots store env options.ignoreLiveness s = .ok () s₁ →
      s₁.toWorld.storePart = s.toWorld.storePart →
      Run s₁ (deletePaths store env options settings)
        (fun _ t => t.toWorld.storePart = s.toWorld.storePart)
        (fun _ t => t.toWorld.storePart = s.toWorld.storePart)) :
    (final (collectGarbage store env options settings) s).toWorld.storePart =
      s.toWorld.storePart := by
  unfold collectGarbage
  by_cases hnothing : options.nothingToDelete = true
  · rw [if_pos hnothing]
    rfl
  rw [if_neg hnothing]
  have hreads : OnlyReads (findAllRoots store env options.ignoreLiveness) :=
    findAllRoots_reads hothers _
  have hroots := hreads s.toWorld.storePart s rfl
  cases hrun : findAllRoots store env options.ignoreLiveness s with
  | error e s₁ =>
      rw [hrun] at hroots
      rw [final_bind_of_error hrun]
      exact hroots
  | ok u s₁ =>
      rw [hrun] at hroots
      rw [final_bind_of_ok hrun]
      have hend : OnlyReads (finish store env options) := finish_reads h
      refine Spec.final_of (Spec.seq (orCatch_spec (hdelete s₁ hrun hroots)
        (fun _ _ ht _ => ht) fun _ _ ht _ => ht) fun _ => ?_)
      exact hend _

/-- A query that finds only guarded names leaves the store as it was. -/
theorem collectGarbage_query_of_onlyGuarded (hothers : LeavesStore env) (h : IsQuery options)
    (honly : OnlyGuarded store env options) (s : Collecting) :
    (final (collectGarbage store env options settings) s).toWorld.storePart =
      s.toWorld.storePart :=
  collectGarbage_reads hothers h fun _ _ hsame =>
    (deletePaths_reads hothers h honly s.toWorld.storePart).weaken (fun _ ht => ht ▸ hsame)
      (fun _ _ ht => ht) fun _ _ ht => ht

/-- So does one that throws before it comes to another name. -/
theorem collectGarbage_query_of_throwsFirst (hothers : LeavesStore env) (h : IsQuery options)
    {s : Collecting} (hthrows : ThrowsFirst store env options settings s) :
    (final (collectGarbage store env options settings) s).toWorld.storePart =
      s.toWorld.storePart := by
  classical
  by_cases honly : OnlyGuarded store env options
  · exact collectGarbage_query_of_onlyGuarded hothers h honly s
  unfold OnlyGuarded at honly
  push Not at honly
  obtain ⟨hpaths, hmax, hmem⟩ := honly
  refine collectGarbage_reads hothers h fun s₁ hrun hsame => ?_
  obtain ⟨name, hfind⟩ := Option.isSome_iff_exists.mp (List.find?_isSome.mpr
    (hmem.imp fun name h => ⟨h.1, decide_eq_true h.2⟩))
  obtain ⟨hname, front, rest, hread, hfront⟩ := List.find?_eq_some_iff_append.mp hfind
  -- an exception comes before the first such entry
  obtain ⟨e, s₂, hthrow⟩ := hthrows front name rest hread (of_decide_eq_true hname)
  have hthrow' : front.forM (deleteEntry store env options settings) s₁ = .error e s₂ :=
    (bind_of_ok hrun).symm.trans hthrow
  have hkeeps : Keeps (fun t => t.toWorld.storePart = s.toWorld.storePart)
      (front.forM (deleteEntry store env options settings)) :=
    Keeps.loop fun other hother => deleteEntry_guarded hothers h.shouldDelete
      (by simpa using hfront other hother) s.toWorld.storePart
  have hkept := hkeeps s₁ hsame
  rw [hthrow'] at hkept
  rw [deletePaths_wholeStore h hpaths hmax, hread, forM_append]
  rintro _ rfl
  rw [bind_of_error hthrow']
  exact hkept

/-- A collection that is asked for the live or the dead paths leaves the store
    as it was exactly when it finds only guarded names, or throws before it comes
    to another one. -/
theorem collectGarbage_query_iff (store : StoreDirConfig) (env : Surroundings)
    (options : GCOptions) (settings : GCSettings) (s : Collecting) (h : IsQuery options)
    (hothers : LeavesStore env)
    (hlisted : ∀ name ∈ env.readdir, Unguarded store env name → HasEntry s.files name) :
    (final (collectGarbage store env options settings) s).toWorld.storePart = s.toWorld.storePart ↔
      OnlyGuarded store env options ∨ ThrowsFirst store env options settings s := by
  constructor
  · -- an entry that is reached is missing in the end
    intro hsame
    by_contra hnot
    obtain ⟨honly, hthrows⟩ := not_or.mp hnot
    unfold OnlyGuarded at honly
    unfold ThrowsFirst at hthrows
    push Not at honly hthrows
    obtain ⟨hpaths, hmax, -⟩ := honly
    obtain ⟨front, name, rest, hread, hname, hreturns⟩ := hthrows
    unfold collectGarbage at hsame
    rw [if_neg (GCOptions.not_nothingToDelete hpaths)] at hsame
    have hend : OnlyReads (finish store env options) := finish_reads h
    cases hrun : findAllRoots store env options.ignoreLiveness s with
    | error e s₁ => exact hreturns e s₁ (bind_of_error hrun)
    | ok u s₁ =>
        cases hfront : front.forM (deleteEntry store env options settings) s₁ with
        | error e s₂ => exact hreturns e s₂ ((bind_of_ok hrun).trans hfront)
        | ok u' s₂ =>
            have hremoved : Run s₁ (orCatch isLimitReached (deletePaths store env options settings))
                (fun _ t => ¬ HasEntry t.files name) (fun _ t => ¬ HasEntry t.files name) :=
              orCatch_spec (deletePaths_removes hothers h hpaths hmax hread hname hfront)
                (fun _ _ hs _ => hs) fun _ _ hs _ => hs
            have hgone := Spec.final_of (Spec.seq hremoved fun _ => reads_keeps_absent hend name)
            rw [final_bind_of_ok hrun] at hsame
            have hfiles : (final (orCatch isLimitReached (deletePaths store env options settings)
                >>= fun _ => finish store env options) s₁).files = s.files :=
              congrArg (fun part => part.2.1) hsame
            rw [hfiles] at hgone
            refine hgone (hlisted name ?_ hname)
            rw [hread]
            exact List.mem_append_right _ List.mem_cons_self
  · rintro (honly | hthrows)
    · exact collectGarbage_query_of_onlyGuarded hothers h honly s
    · exact collectGarbage_query_of_throwsFirst hothers h hthrows

end Collecting

namespace Collecting

namespace Sample

/-- Nobody else is there, and the store directory has these names. -/
def alone (readdir : List Bytes) : Surroundings where
  others := fun s => s.toWorld
  rootPaths := []
  autoDir := []
  runtimeRoots := []
  tempRootsFiles := []
  readdir := readdir
  lockable := fun _ => true
  freed := fun _ => 1
  readdirLinks := []
  nlink := fun _ => 1

/-- A name that is no store path. -/
def junk : FileName := ⟨ascii "junk", by decide +kernel⟩

/-- A collection in a store with one entry and no valid paths. -/
def only (name : FileName) : Collecting :=
  start { db := Db.empty, files := Finmap.singleton name (.regular false []), links := ∅,
          outside := fun _ => none, tempRoots := ∅ } (LruCache.empty 10)

end Sample

open LocalStore.Sample (store)
open Sample

/-- A store directory with a store path alone stays as it is. -/
theorem collectGarbage_query_entry :
    (final (collectGarbage store (alone [ascii ".", ascii ".links", DiskStore.Sample.nameA.val])
      { action := .gcReturnDead } {}) (only DiskStore.Sample.nameA)).toWorld.storePart =
        (only DiskStore.Sample.nameA).toWorld.storePart := by
  have hguarded : ∀ name ∈ [ascii ".", ascii ".links", DiskStore.Sample.nameA.val],
      ¬ Unguarded store (alone [ascii ".", ascii ".links", DiskStore.Sample.nameA.val]) name := by
    intro name hname h
    rcases List.mem_cons.mp hname with hdot | hname
    · exact h.ne_dot hdot
    rcases List.mem_cons.mp hname with hlinks | hname
    · exact h.ne_links hlinks
    · rw [List.mem_singleton] at hname
      have hparse := h.not_storePath
      rw [hname] at hparse
      exact absurd hparse (by decide +kernel)
  refine (collectGarbage_query_iff store _ _ {} _ (.inl rfl) (fun _ => rfl) ?_).mpr (.inl ?_)
  · exact fun name hname h => absurd h (hguarded name hname)
  · exact fun _ _ => hguarded

/-- To ask for the dead paths deletes an entry that is no store path. -/
theorem collectGarbage_query_deletes :
    (final (collectGarbage store (alone [junk.val]) { action := .gcReturnDead } {})
      (only junk)).toWorld.storePart ≠ (only junk).toWorld.storePart := by
  intro h
  have hgone : ((final (collectGarbage store (alone [junk.val]) { action := .gcReturnDead } {})
      (only junk)).files.lookup junk).isSome = false := by decide +kernel
  have hfiles := congrArg (fun part => (part.2.1.lookup junk).isSome) h
  exact absurd (hgone.symm.trans hfiles) (by decide +kernel)

end Collecting
end NixStore
