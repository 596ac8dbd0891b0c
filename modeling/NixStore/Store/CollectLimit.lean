/-
  NixStore.Store.CollectLimit

  A collection with a limit (`GCOptions::maxFreed`, `GCLimitReached` in
  `libstore/gc.cc`).

  It does what a collection without a limit does, call by call, until a deletion
  takes `bytesFreed` above the limit.  That one deletion is the only one too
  many: what was counted before it is within the limit.  The other processes
  react to the state, so the two collections have the same surroundings for as
  long as they are in the same states.
-/

import NixStore.Lib.Stops
import NixStore.Store.CollectQuery

namespace NixStore

open Effect

/-- The same collection without a limit. -/
def GCOptions.unlimited (options : GCOptions) : GCOptions :=
  { options with maxFreed := 0xffffffffffffffff }

namespace Collecting

variable {store : StoreDirConfig} {env : Surroundings} {options : GCOptions}
  {settings : GCSettings}

-- ============================================================================
-- What has been removed so far
-- ============================================================================

/-- What has been freed, and what has been removed. -/
def log (s : Collecting) : UInt64 × List (Bytes × Db) := (s.results.bytesFreed, s.removals)

/-- The limit has not been reached. -/
def Within (options : GCOptions) (s : Collecting) : Prop :=
  s.results.bytesFreed ≤ options.maxFreed

/-- All of this has been removed, and maybe more. -/
def Extends (removals : List (Bytes × Db)) (s : Collecting) : Prop := removals <+: s.removals

/-- The last deletion has gone beyond the limit, and no earlier one has. -/
structure Overshoots (env : Surroundings) (options : GCOptions) (s : Collecting) : Prop where
  beyond : options.maxFreed < s.results.bytesFreed
  last : ∃ before name, before ≤ options.maxFreed ∧
    s.results.bytesFreed = before + env.freed name ∧
    s.removals.getLast?.map Prod.fst = some name

/-- Where a collection has stopped, and where it would have come to. -/
def CutOff (env : Surroundings) (options : GCOptions) (t s : Collecting) : Prop :=
  Overshoots env options t ∧ Extends t.removals s

section Log

variable {J : UInt64 × List (Bytes × Db) → Prop}

theorem callStore_keepsLog {α : Type} (x : StoreM α) :
    Keeps (fun s : Collecting => J s.log) (callStore x) := by
  refine callStore_keeps (J := fun _ => True) (fun t _ => ?_) (fun _ _ => trivial)
    fun _ _ hs _ => hs
  cases x t <;> trivial

/-- A search does not remove anything. -/
theorem search_keepsLog : KeptBySearch store env fun s => J s.log where
  others := fun _ hs => hs
  isValidPath := fun _ => callStore_keepsLog _
  queryPathInfo := fun _ => callStore_keepsLog _
  query := fun _ => callStore_keepsLog _
  pathReferences := fun _ => callStore_keepsLog _
  searchState := fun _ _ _ _ _ hs => hs

/-- Neither does the search for roots. -/
theorem roots_keepsLog : KeptByRoots store env (fun s => J s.log) fun _ => True where
  others := fun _ hs => hs
  isValidPath := fun _ => callStore_keepsLog _
  unlink := fun _ _ _ hs => hs
  root := fun _ _ hs => hs
  tempRoot := fun _ _ hs => hs

theorem finish_keepsLog : Keeps (fun s => J s.log) (finish store env options) := by
  unfold finish
  split
  · exact Keeps.change fun _ hs => hs
  · exact Keeps.change fun _ hs => hs
  all_goals
    exact Keeps.loop fun name _ => Keeps.cond (Keeps.ret _)
      (Keeps.seq (interfere_keeps fun _ hs => hs) fun _ => Keeps.change fun _ hs => hs)

end Log

-- ============================================================================
-- Removals are not taken back
-- ============================================================================

section Extends

variable {removals : List (Bytes × Db)}

theorem search_extends : KeptBySearch store env (Extends removals) :=
  search_keepsLog (J := fun l => removals <+: l.2)

theorem deleteFromStore_extends (name : Bytes) :
    Keeps (Extends removals) (deleteFromStore store env options name) := by
  refine Keeps.cond (Keeps.ret _) (Keeps.seq (Keeps.change fun _ hs => hs) fun _ => ?_)
  refine Keeps.seq (Keeps.seq (interfere_keeps fun _ hs => hs) fun _ =>
    Keeps.change fun s hs => ?_) fun _ => Keeps.seq (Keeps.change fun _ hs => hs) fun _ =>
      Keeps.look fun t => Keeps.cond (Keeps.raise _) (Keeps.ret _)
  exact List.IsPrefix.trans hs (List.prefix_append _ _)

theorem invalidate_extends (path : StorePath) :
    Keeps (Extends removals) (invalidate store env path) := by
  refine Keeps.seq (interfere_keeps fun _ hs => hs) fun _ => Keeps.look fun t => ?_
  refine Keeps.seq (callStore_keepsLog (J := fun l => removals <+: l.2) _) fun _ =>
    Keeps.change fun s hs => ?_
  exact List.IsPrefix.trans hs (List.prefix_append _ _)

theorem deleteUnused_extends (path : StorePath) :
    Keeps (Extends removals) (deleteUnused store env options path) :=
  orCatch_keeps (Keeps.seq (invalidate_extends path) fun _ =>
    Keeps.seq (deleteFromStore_extends _) fun _ => Keeps.change fun _ hs => hs)

theorem deleteVisited_extends (path : StorePath) :
    Keeps (Extends removals) (deleteVisited store env options settings path) := by
  refine Keeps.seq (interfere_keeps fun _ hs => hs) fun _ => Keeps.look fun t =>
    Keeps.cond (Keeps.ret _) (Keeps.seq (Keeps.change fun _ hs => hs) fun _ => Keeps.cond ?_
      (Keeps.ret _))
  refine Keeps.seq (Keeps.change fun _ hs => hs) fun _ => Keeps.seq (Keeps.look fun t =>
    Keeps.cond (Keeps.ret _) (Keeps.seq (Keeps.change fun _ hs => hs) fun _ => Keeps.ret _))
      fun isRoot => Keeps.cond ?_ ?_
  · exact search_markAlive_keeps search_extends path
  · exact atEnd_keeps (deleteUnused_extends path) fun _ hs => hs

theorem maybeDeleteReferrersClosure_extends (start : StorePath) :
    Keeps (Extends removals) (maybeDeleteReferrersClosure store env options settings start) := by
  refine atEnd_keeps (Keeps.seq (Keeps.change fun _ hs => hs) fun _ =>
    Keeps.seq (search_keeps search_extends start _ _ _) fun visited => ?_) fun _ hs => hs
  cases visited with
  | none => exact Keeps.ret _
  | some visited =>
      refine Keeps.seq ((topoSortPaths_keeps search_extends visited).weaken (fun _ h => h)
        (fun _ _ h => h.1) fun _ _ h => h) fun sorted => ?_
      exact Keeps.loop fun path _ => deleteVisited_extends path

theorem deleteSpecific_extends (path : StorePath) :
    Keeps (Extends removals) (deleteSpecific store env options settings path) :=
  Keeps.seq (maybeDeleteReferrersClosure_extends path) fun _ => Keeps.look fun _ =>
    Keeps.cond (Keeps.raise _) (Keeps.ret _)

theorem deleteEntry_extends (name : Bytes) :
    Keeps (Extends removals) (deleteEntry store env options settings name) := by
  refine Keeps.cond (Keeps.ret _) ?_
  split
  · exact maybeDeleteReferrersClosure_extends _
  · exact deleteFromStore_extends _

/-- What is kept behind the point where a collection has stopped. -/
theorem cutOff_keeps {α : Type} {x : CollectM α} (h : ∀ removals, Keeps (Extends removals) x)
    (t : Collecting) : Keeps (CutOff env options t) x := by
  intro s hs
  have hkept : Spec (fun t' => t' = s) x (fun _ => CutOff env options t) fun _ =>
      CutOff env options t :=
    (h t.removals).weaken (fun _ heq => heq ▸ hs.2) (fun _ _ h => ⟨hs.1, h⟩)
      fun _ _ h => ⟨hs.1, h⟩
  exact hkept s rfl

end Extends

-- ============================================================================
-- Up to the limit
-- ============================================================================

/-- A program with the limit and the same program without it. -/
abbrev StopsAt (env : Surroundings) (options : GCOptions) {α : Type} (x y : CollectM α) : Prop :=
  Stops (Within options) .limitReached (CutOff env options) x y

theorem search_within : KeptBySearch store env (Within options) :=
  search_keepsLog (J := fun l => l.1 ≤ options.maxFreed)

theorem final_orCatch (caught : GCThrow → Bool) (x : CollectM Unit) (s : Collecting) :
    final (orCatch caught x) s = final x s := by
  unfold final orCatch
  cases x s with
  | ok u s' => rfl
  | error e s' =>
      dsimp only
      by_cases hc : caught e = true
      · rw [if_pos hc]
      · rw [if_neg hc]

theorem final_atEnd (f : Collecting → Collecting) (x : CollectM Unit) (s : Collecting) :
    final (atEnd f x) s = f (final x s) := by
  unfold final atEnd
  cases x s <;> rfl

theorem Overshoots.of_log {s t : Collecting} (h : Overshoots env options t) (hlog : s.log = t.log) :
    Overshoots env options s := by
  obtain ⟨hbytes, hremovals⟩ := Prod.mk.inj hlog
  obtain ⟨hbeyond, hlast⟩ := h
  constructor
  · rw [hbytes]
    exact hbeyond
  · rw [hbytes, hremovals]
    exact hlast

theorem StopsAt.orCatch {caught : GCThrow → Bool} (hcaught : caught .limitReached = false)
    {x y : CollectM Unit} (h : StopsAt env options x y) :
    StopsAt env options (orCatch caught x) (orCatch caught y) := by
  intro s hs
  rw [final_orCatch]
  rcases h s hs with ⟨hsame, hwithin⟩ | ⟨t, hstop, hcut⟩
  · exact .inl ⟨by unfold Collecting.orCatch; rw [hsame], hwithin⟩
  · refine .inr ⟨t, ?_, hcut⟩
    unfold Collecting.orCatch
    rw [hstop]
    dsimp only
    rw [hcaught, if_neg Bool.false_ne_true]

/-- What is put back at the end has nothing to do with the limit. -/
theorem StopsAt.atEnd {f : Collecting → Collecting} (hf : ∀ s, (f s).log = s.log)
    {x y : CollectM Unit} (h : StopsAt env options x y) :
    StopsAt env options (atEnd f x) (atEnd f y) := by
  intro s hs
  rw [final_atEnd]
  rcases h s hs with ⟨hsame, hwithin⟩ | ⟨t, hstop, hover, hprefix⟩
  · refine .inl ⟨by unfold Collecting.atEnd; rw [hsame], ?_⟩
    rw [Within, show (f (final y s)).results.bytesFreed = _ from congrArg Prod.fst (hf _)]
    exact hwithin
  · refine .inr ⟨f t, by unfold Collecting.atEnd; rw [hstop], hover.of_log (hf t), ?_⟩
    rw [Extends, show (f t).removals = _ from congrArg Prod.snd (hf t),
      show (f (final y s)).removals = _ from congrArg Prod.snd (hf _)]
    exact hprefix

/-- The state behind a deletion. -/
def deleted (store : StoreDirConfig) (env : Surroundings) (name : Bytes) (s : Collecting) :
    Collecting :=
  let reported : Collecting := { s with results :=
    { s.results with paths := insert (store.text ++ ascii "/" ++ name) s.results.paths } }
  let t := reported.afterOthers env
  { t with
    files := if h : invalidName name then t.files else t.files.erase ⟨name, h⟩
    removals := t.removals ++ [(name, t.db)]
    results := { t.results with bytesFreed := t.results.bytesFreed + env.freed name } }

theorem deleteFromStore_run {name : Bytes} (hlocked : lockedTempDir env name = false)
    (s : Collecting) :
    deleteFromStore store env options name s =
      if options.maxFreed < (deleted store env name s).results.bytesFreed then
        .error .limitReached (deleted store env name s)
      else .ok () (deleted store env name s) := by
  unfold deleteFromStore
  rw [if_neg (by rw [hlocked]; exact Bool.false_ne_true)]
  show (if options.maxFreed < (deleted store env name s).results.bytesFreed then
    (throw .limitReached : CollectM Unit) else pure ()) (deleted store env name s) = _
  split <;> rfl

theorem le_unlimited (b : UInt64) : b ≤ options.unlimited.maxFreed := by
  have hb := b.toNat_lt
  rw [GCOptions.unlimited, UInt64.le_iff_toNat_le,
    show (0xffffffffffffffff : UInt64).toNat = 2 ^ 64 - 1 from rfl]
  omega

/-- The limit is looked at after each deletion. -/
theorem stops_deleteFromStore (name : Bytes) :
    StopsAt env options (deleteFromStore store env options name)
      (deleteFromStore store env options.unlimited name) := by
  by_cases hlocked : lockedTempDir env name = true
  · unfold deleteFromStore
    rw [if_pos hlocked, if_pos hlocked]
    exact Stops.same (Keeps.ret _)
  · have hlocked' : lockedTempDir env name = false := Bool.eq_false_iff.mpr hlocked
    intro s hs
    have hall : deleteFromStore store env options.unlimited name s =
        .ok () (deleted store env name s) := by
      rw [deleteFromStore_run hlocked', if_neg (UInt64.not_lt.mpr (le_unlimited _))]
    rw [final, hall, deleteFromStore_run hlocked']
    by_cases hbeyond : options.maxFreed < (deleted store env name s).results.bytesFreed
    · rw [if_pos hbeyond]
      refine .inr ⟨_, rfl, ⟨hbeyond, s.results.bytesFreed, name, hs, rfl, ?_⟩, List.prefix_rfl⟩
      exact congrArg (Option.map Prod.fst) List.getLast?_concat
    · rw [if_neg hbeyond]
      exact .inl ⟨rfl, UInt64.not_lt.mp hbeyond⟩

theorem invalidate_within (path : StorePath) :
    Keeps (Within options) (invalidate store env path) := by
  refine Keeps.seq (interfere_keeps fun _ hs => hs) fun _ => Keeps.look fun t => ?_
  exact Keeps.seq (callStore_keepsLog (J := fun l => l.1 ≤ options.maxFreed) _) fun _ =>
    Keeps.change fun s hs => hs

theorem stops_deleteUnused (path : StorePath) :
    StopsAt env options (deleteUnused store env options path)
      (deleteUnused store env options.unlimited path) := by
  refine StopsAt.orCatch rfl (Stops.step (invalidate_within path) fun _ => ?_)
  exact Stops.seq (stops_deleteFromStore _) (fun _ => .same (Keeps.change fun _ hs => hs)) fun _ =>
    cutOff_keeps fun _ => Keeps.change fun _ hs => hs

theorem stops_deleteVisited (path : StorePath) :
    StopsAt env options (deleteVisited store env options settings path)
      (deleteVisited store env options.unlimited settings path) := by
  refine Stops.step (interfere_keeps fun _ hs => hs) fun _ => Stops.look fun t =>
    Stops.cond (fun _ => .same (Keeps.ret _)) fun _ => Stops.step (Keeps.change fun _ hs => hs)
      fun _ => Stops.cond (fun _ => ?_) fun _ => .same (Keeps.ret _)
  refine Stops.step (Keeps.change fun _ hs => hs) fun _ => Stops.step (Keeps.look fun t =>
    Keeps.cond (Keeps.ret _) (Keeps.seq (Keeps.change fun _ hs => hs) fun _ => Keeps.ret _))
      fun isRoot => Stops.cond (fun _ => ?_) fun _ => ?_
  · exact .same (search_markAlive_keeps search_within path)
  · refine StopsAt.atEnd ?_ (stops_deleteUnused path)
    exact fun _ => rfl

theorem search_unlimited (start : StorePath) (bound : Nat) (visited : Finset StorePath)
    (todo : List StorePath) :
    search store env options.unlimited settings start bound visited todo =
      search store env options settings start bound visited todo := by
  induction bound generalizing visited todo with
  | zero => cases todo <;> rfl
  | succ bound ih =>
      cases todo with
      | nil => rfl
      | cons path todo =>
          rw [search, search]
          refine congrArg (visitPath store env options settings start path >>= ·) ?_
          funext visit
          cases visit with
          | giveUp => rfl
          | enqueue sets => exact ih _ _

theorem stops_maybeDeleteReferrersClosure (start : StorePath) :
    StopsAt env options (maybeDeleteReferrersClosure store env options settings start)
      (maybeDeleteReferrersClosure store env options.unlimited settings start) := by
  unfold maybeDeleteReferrersClosure
  refine StopsAt.atEnd ?_ (Stops.step (Keeps.change ?_) fun _ => ?_)
  · exact fun _ => rfl
  · exact fun _ hs => hs
  rw [search_unlimited]
  refine Stops.step (search_keeps search_within start _ _ _) fun visited => ?_
  cases visited with
  | none => exact .same (Keeps.ret _)
  | some visited =>
      refine Stops.step ((topoSortPaths_keeps search_within visited).weaken (fun _ h => h)
        (fun _ _ h => h.1) fun _ _ h => h) fun sorted => ?_
      exact Stops.each (fun path _ => stops_deleteVisited path) fun path _ =>
        cutOff_keeps fun _ => deleteVisited_extends path

theorem stops_deleteSpecific (path : StorePath) :
    StopsAt env options (deleteSpecific store env options settings path)
      (deleteSpecific store env options.unlimited settings path) := by
  refine Stops.seq (stops_maybeDeleteReferrersClosure path) (fun _ => .same ?_) fun _ =>
    cutOff_keeps fun _ => ?_
  all_goals exact Keeps.look fun _ => Keeps.cond (Keeps.raise _) (Keeps.ret _)

theorem stops_deleteEntry (name : Bytes) :
    StopsAt env options (deleteEntry store env options settings name)
      (deleteEntry store env options.unlimited settings name) := by
  refine Stops.cond (fun _ => .same (Keeps.ret _)) fun _ => ?_
  split
  · exact stops_maybeDeleteReferrersClosure _
  · exact stops_deleteFromStore _

/-- The whole deletion, unless it is left out. -/
theorem stops_deletePaths (h : ¬ (options.pathsToDelete = .wholeStore ∧ options.maxFreed = 0)) :
    StopsAt env options (deletePaths store env options settings)
      (deletePaths store env options.unlimited settings) := by
  unfold deletePaths
  rw [show options.unlimited.pathsToDelete = options.pathsToDelete from rfl]
  cases hpaths : options.pathsToDelete with
  | specificPaths paths deleteReferrers =>
      dsimp only
      exact Stops.each (fun path _ => stops_deleteSpecific path) fun path _ =>
        cutOff_keeps fun _ => deleteSpecific_extends path
  | wholeStore =>
      show StopsAt env options (if options.maxFreed = 0 then pure () else _)
        (if (0xffffffffffffffff : UInt64) = 0 then pure () else _)
      rw [if_neg fun hzero => h ⟨hpaths, hzero⟩,
        if_neg (show ¬ (0xffffffffffffffff : UInt64) = 0 by decide)]
      refine Stops.cond (fun _ => .same (Keeps.raise _)) fun _ => ?_
      exact Stops.each (fun name _ => stops_deleteEntry name) fun name _ =>
        cutOff_keeps fun _ => deleteEntry_extends name

-- ============================================================================
-- The collection
-- ============================================================================

theorem final_finish_log (store : StoreDirConfig) (env : Surroundings) (options : GCOptions)
    (s : Collecting) : (final (finish store env options) s).log = s.log :=
  Keeps.final (I := fun t : Collecting => t.log = s.log) (finish_keepsLog (J := (· = s.log))) rfl

/-- With a limit of zero the store directory is not even read. -/
theorem deletePaths_zero (hwhole : options.pathsToDelete = .wholeStore)
    (hzero : options.maxFreed = 0) : deletePaths store env options settings = pure () := by
  unfold deletePaths
  rw [hwhole]
  exact if_pos hzero

/-- Nothing has been freed or removed when the roots are known. -/
theorem findAllRoots_log (store : StoreDirConfig) (env : Surroundings) (w : World)
    (cache : LruCache StorePath (Option ValidPathInfo)) (ignoreLiveness : Bool) :
    (final (findAllRoots store env ignoreLiveness) (start w cache)).log = (0, []) :=
  (findAllRoots_keeps (roots_keepsLog (J := (· = (0, [])))) (fun _ _ => trivial) _).final rfl

section Run

variable {initial s : Collecting}

/-- What follows the search for roots. -/
theorem collectGarbage_run (hdelete : ¬ options.nothingToDelete = true)
    (hroots : findAllRoots store env options.ignoreLiveness initial = .ok () s) :
    collectGarbage store env options settings initial =
      (orCatch isLimitReached (deletePaths store env options settings) >>= fun _ =>
        finish store env options) s := by
  unfold collectGarbage
  rw [if_neg hdelete, bind_of_ok hroots]

/-- A collection that has stopped at the limit ends as every other one does. -/
theorem final_of_limitReached (hdelete : ¬ options.nothingToDelete = true)
    (hroots : findAllRoots store env options.ignoreLiveness initial = .ok () s) {t : Collecting}
    (hstop : deletePaths store env options settings s = .error .limitReached t) :
    final (collectGarbage store env options settings) initial =
      final (finish store env options) t := by
  have hcaught : orCatch isLimitReached (deletePaths store env options settings) s = .ok () t := by
    unfold orCatch
    rw [hstop]
    rfl
  rw [final, collectGarbage_run hdelete hroots, bind_of_ok hcaught]
  rfl

/-- What the deletion has removed stays removed. -/
theorem extends_of_deletePaths (hdelete : ¬ options.nothingToDelete = true)
    (hroots : findAllRoots store env options.ignoreLiveness initial = .ok () s)
    {removals : List (Bytes × Db)}
    (h : Extends removals (final (deletePaths store env options settings) s)) :
    Extends removals (final (collectGarbage store env options settings) initial) := by
  rw [← final_orCatch isLimitReached] at h
  rw [final, collectGarbage_run hdelete hroots]
  cases hcatch : orCatch isLimitReached (deletePaths store env options settings) s with
  | ok u s' =>
      rw [final, hcatch] at h
      rw [bind_of_ok hcatch]
      exact Keeps.final (finish_keepsLog (J := fun l => removals <+: l.2)) h
  | error e s' =>
      rw [final, hcatch] at h
      rw [bind_of_error hcatch]
      exact h

end Run

/-- With a limit, a collection runs as without it; or it removes the same paths
    in the same order up to the first deletion that takes `bytesFreed` above the
    limit, and nothing after that; or nothing at all, if the whole store is
    asked for and the limit is zero. -/
theorem collectGarbage_limit (store : StoreDirConfig) (env : Surroundings) (options : GCOptions)
    (settings : GCSettings) (w : World) (cache : LruCache StorePath (Option ValidPathInfo)) :
    collectGarbage store env options settings (start w cache) =
        collectGarbage store env options.unlimited settings (start w cache) ∨
      (final (collectGarbage store env options settings) (start w cache)).removals <+:
          (final (collectGarbage store env options.unlimited settings) (start w cache)).removals ∧
        (Overshoots env options
            (final (collectGarbage store env options settings) (start w cache)) ∨
          options.maxFreed = 0 ∧ options.pathsToDelete = .wholeStore ∧
            (final (collectGarbage store env options settings) (start w cache)).removals = []) := by
  by_cases hdelete : options.nothingToDelete = true
  · left
    unfold collectGarbage
    rw [if_pos hdelete, if_pos (show options.unlimited.nothingToDelete = true from hdelete)]
  have hdelete' : ¬ options.unlimited.nothingToDelete = true := hdelete
  have hlog := findAllRoots_log store env w cache options.ignoreLiveness
  cases hroots : findAllRoots store env options.ignoreLiveness (start w cache) with
  | error e s =>
      left
      have hroots' : findAllRoots store env options.unlimited.ignoreLiveness (start w cache) =
          .error e s := hroots
      unfold collectGarbage
      rw [if_neg hdelete, if_neg hdelete', bind_of_error hroots, bind_of_error hroots']
  | ok u s =>
      rw [final, hroots] at hlog
      obtain ⟨hbytes, hremovals⟩ := Prod.mk.inj hlog
      by_cases hzero : options.pathsToDelete = .wholeStore ∧ options.maxFreed = 0
      · -- the loop over the store directory is left out
        right
        have hnothing : (final (collectGarbage store env options settings)
            (start w cache)).removals = [] := by
          rw [final, collectGarbage_run hdelete hroots, deletePaths_zero hzero.1 hzero.2]
          exact (congrArg Prod.snd (final_finish_log store env options s)).trans hremovals
        rw [hnothing]
        exact ⟨List.nil_prefix, .inr ⟨hzero.2, hzero.1, rfl⟩⟩
      have hwithin : Within options s := by
        rw [Within, hbytes]
        exact UInt64.zero_le
      rcases stops_deletePaths hzero s hwithin with ⟨hsame, -⟩ | ⟨t, hstop, hover, hprefix⟩
      · left
        rw [collectGarbage_run hdelete hroots, collectGarbage_run hdelete' hroots, bind_run,
          bind_run]
        unfold orCatch
        rw [hsame]
        rfl
      · right
        have hends := final_finish_log store env options t
        rw [final_of_limitReached hdelete hroots hstop,
          show (final (finish store env options) t).removals = t.removals from
            congrArg Prod.snd hends]
        exact ⟨extends_of_deletePaths hdelete' hroots hprefix, .inl (hover.of_log hends)⟩

/-- Every entry frees one byte: the second one is one too many. -/
example : (final (collectGarbage LocalStore.Sample.store
    (Sample.alone [ascii "x", ascii "y", ascii "z"]) { maxFreed := 1 } {})
      (Sample.only Sample.junk)).removals.map Prod.fst = [ascii "x", ascii "y"] := by
  decide +kernel

end Collecting
end NixStore
