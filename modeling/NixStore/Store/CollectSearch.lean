/-
  NixStore.Store.CollectSearch

  What one search of `collectGarbage` finds and what the loop behind it
  deletes, in a store whose path-info cache agrees with the database, while
  other processes only send temporary roots.

  A search that is not given up has visited everything from which its start is
  reached, and no root among it.  The loop behind it comes to a path after all
  that refers to it, so nothing it deletes is still in use.
-/

import NixStore.Store.CollectQuery
import NixStore.Store.Coherent
import NixStore.Lib.Worklist
import Mathlib.Data.Fintype.Option
import Mathlib.Data.Fintype.BigOperators

namespace NixStore

open Effect OrderedSet Wire Relation Worklist

/-- There are no more store paths than the limit says. -/
theorem StorePath.card_le_limit (s : Finset StorePath) : s.card ≤ StorePath.limit := by
  have hlen : ∀ p : StorePath, p.baseName.length ≤ hashLen + 1 + maxPathLen := by
    intro p
    have hname := (checkBaseName_eq_ok.mp p.valid).2.2
    simp only [checkName, bind_eq_ok, throwIf_eq_ok, not_lt] at hname
    obtain ⟨-, -, -, hmax, -⟩ := hname
    rw [List.length_drop] at hmax
    omega
  let code : StorePath → Fin (hashLen + 1 + maxPathLen) → Option (Fin 256) :=
    fun p i => p.baseName[i.val]?.map fun c => ⟨c.toNat, c.toNat_lt⟩
  have hinj : Function.Injective code := by
    intro p q h
    refine StorePath.ext' (List.ext_getElem? fun i => ?_)
    by_cases hi : i < hashLen + 1 + maxPathLen
    · have hcode := congrFun h ⟨i, hi⟩
      refine Option.map_injective (fun c d hcd => ?_) hcode
      exact UInt8.toNat_inj.mp (Fin.mk.inj hcd)
    · rw [List.getElem?_eq_none ((hlen p).trans (not_lt.mp hi)),
        List.getElem?_eq_none ((hlen q).trans (not_lt.mp hi))]
  calc s.card = (s.image code).card := (Finset.card_image_of_injective s hinj).symm
    _ ≤ Fintype.card (Fin (hashLen + 1 + maxPathLen) → Option (Fin 256)) := Finset.card_le_univ _
    _ = StorePath.limit := by
        rw [Fintype.card_pi_const, Fintype.card_option, Fintype.card_fin]
        rfl

namespace Collecting

variable {store : StoreDirConfig} {env : Surroundings}

-- ============================================================================
-- Closures
-- ============================================================================

/-- The workers in flight throw nothing. -/
theorem drain_spec {P : Collecting → Prop} {getEdges : StorePath → CollectM (Finset StorePath)}
    (h : ∀ p, Keeps P (getEdges p)) (todo : List StorePath) :
    Spec P (drain getEdges todo) (fun _ => P) (fun _ _ => False) := by
  refine Spec.loop (I := fun _ => P) _ fun _ path _ _ => ?_
  refine orCatch_spec (Keeps.seq (h path) fun _ => Keeps.ret _) (fun _ _ hs _ => hs) ?_
  exact fun _ _ _ hc => Bool.noConfusion hc

/-- A closure contains what is reached, and an exception comes from something
    that is reached. -/
theorem closureWorkers_spec {P : Collecting → Prop} {F : StorePath → GCThrow → Prop}
    {r : StorePath → StorePath → Prop} {getEdges : StorePath → CollectM (Finset StorePath)}
    (hedges : ∀ p, Spec P (getEdges p) (fun S t => P t ∧ ∀ q, q ∈ S ↔ r p q)
      (fun e t => P t ∧ F p e)) (path : StorePath) :
    Spec P (closureWorkers getEdges (StorePath.limit + 1) {path} [path])
      (fun S t => P t ∧ ∀ q, q ∈ S ↔ ReflTransGen r path q)
      (fun e t => P t ∧ ∃ q, ReflTransGen r path q ∧ F q e) := by
  have hkeeps : ∀ p, Keeps P (getEdges p) := fun p =>
    (hedges p).weaken (fun _ h => h) (fun _ _ h => h.1) fun _ _ h => h.1
  have hgo : ∀ bound visited todo, WellQueued visited todo →
      Bounded StorePath.limit bound visited todo → path ∈ visited →
      (∀ p ∈ expanded visited todo, ∀ q, r p q → q ∈ visited) →
      (∀ p ∈ visited, ReflTransGen r path p) →
      Spec P (closureWorkers getEdges bound visited todo)
        (fun S t => P t ∧ ∀ q, q ∈ S ↔ ReflTransGen r path q)
        (fun e t => P t ∧ ∃ q, ReflTransGen r path q ∧ F q e) := by
    intro bound
    induction bound with
    | zero => exact fun _ _ _ hbound => absurd rfl (hbound.ne_zero StorePath.card_le_limit)
    | succ bound ih =>
        intro visited todo hq hbound hpath hclosed hreach
        cases todo with
        | nil =>
            refine Spec.ret fun t ht => ⟨ht, fun q => ⟨hreach q, fun h => ?_⟩⟩
            rw [expanded_nil] at hclosed
            exact mem_of_reaches hclosed hpath h
        | cons p todo =>
            intro s hs
            have hrun := hedges p s hs
            unfold closureWorkers
            cases hx : getEdges p s with
            | error e s' =>
                rw [hx] at hrun
                have hdrain : Spec P (drain getEdges todo >>= fun _ => throw e)
                    (fun (S : Finset StorePath) t => P t ∧ ∀ q, q ∈ S ↔ ReflTransGen r path q)
                    (fun e t => P t ∧ ∃ q, ReflTransGen r path q ∧ F q e) := by
                  refine Spec.seq ((drain_spec hkeeps todo).weaken (fun _ h => h)
                    (fun _ _ h => h) fun _ _ h => h.elim) fun _ => ?_
                  exact Spec.raise fun t ht =>
                    ⟨ht, p, hreach p (hq.queued p List.mem_cons_self), hrun.2⟩
                exact hdrain s' hrun.1
            | ok S s' =>
                rw [hx] at hrun
                refine ih _ _ (hq.pop.enqueue S) ((hbound.pop hq).enqueue S)
                  (Finset.mem_union_left _ hpath) ?_ ?_ s' hrun.1
                · intro a ha b hab
                  rw [expanded_enqueue, hq.mem_expanded_pop] at ha
                  rcases ha with rfl | ha
                  · exact Finset.mem_union_right _ ((hrun.2 b).mpr hab)
                  · exact Finset.mem_union_left _ (hclosed a ha b hab)
                · intro a ha
                  rcases Finset.mem_union.mp ha with ha | ha
                  · exact hreach a ha
                  · exact (hreach p (hq.queued p List.mem_cons_self)).tail ((hrun.2 a).mp ha)
  refine hgo _ _ _ (wellQueued_start path) (bounded_start _ path) (Finset.mem_singleton_self path)
    ?_ ?_
  · intro p hp
    rw [expanded_start] at hp
    exact absurd hp (Finset.notMem_empty p)
  · intro p hp
    rw [Finset.mem_singleton.mp hp]

-- ============================================================================
-- The state of a search
-- ============================================================================

/-- The variables that neither a search nor the others change. -/
def untouched (s : Collecting) :=
  (s.toWorld.storePart, s.roots, s.dead, s.results, s.removals)

variable (env) in
/-- The others do nothing but send temporary roots, with a property that their
    set keeps, and send none that comes too late. -/
structure OnlyTimelyRoots (T : Finset Bytes → Prop) : Prop where
  store : LeavesStore env
  keeps : ∀ s, T s.tempRoots → T (env.others s).tempRoots
  timely : ∀ s, ∀ p ∈ s.passed, p.hashPart ∈ (env.others s).tempRoots → p.hashPart ∈ s.tempRoots

/-- A state in a search that has started in a given one.  The referrers in the
    cache may be out of date: those of an earlier database. -/
structure Searching (store : StoreDirConfig) (T : Finset Bytes → Prop) (derivers : Bool) (db₀ : Db)
    (s₀ : Collecting) (alive passed : Finset StorePath) (s : Collecting) : Prop where
  untouched : s.untouched = s₀.untouched
  coherent : LocalStore.CoherentOver store derivers s₀.db s.toLocalStore
  complete : ∀ p R, s.referrersCache p = some R →
    ∀ q, LocalStore.PathRefers store s₀.db q p → q ∈ R
  sound : ∀ p R, s.referrersCache p = some R → ∀ q ∈ R, LocalStore.PathRefers store db₀ q p
  temp : T s.tempRoots
  alive_eq : s.alive = alive
  passed_eq : s.passed = passed
  timely : ∀ p ∈ passed, p.hashPart ∉ s.tempRoots

/-- An exception that means that a row cannot be read. -/
def Broken (store : StoreDirConfig) (db : Db) (e : GCThrow) : Prop :=
  ∃ e', e = .error e' ∧ e'.passes = true ∧ ¬ LocalStore.ReadableDb store db

section Steps

variable {T : Finset Bytes → Prop} {derivers : Bool} {db₀ : Db} {s₀ : Collecting}
  {alive passed : Finset StorePath} (henv : OnlyTimelyRoots env T)
include henv

theorem interfere_spec {E : GCThrow → Collecting → Prop} :
    Spec (Searching store T derivers db₀ s₀ alive passed) (interfere env)
      (fun _ => Searching store T derivers db₀ s₀ alive passed) E := by
  intro s hs
  refine ⟨?_, ⟨?_, hs.coherent.told⟩, hs.complete, hs.sound, henv.keeps s hs.temp, hs.alive_eq,
    hs.passed_eq, ?_⟩
  · have huntouched := hs.untouched
    unfold Collecting.untouched at huntouched ⊢
    rw [← huntouched]
    show ((env.others s).storePart, _) = _
    rw [henv.store s]
    rfl
  · exact (congrArg Prod.fst (henv.store s)).trans hs.coherent.db_eq
  · intro p hp hmem
    exact hs.timely p hp (henv.timely s p (hs.passed_eq.symm ▸ hp) hmem)

/-- A query in a search. -/
theorem onStore_spec {α : Type} {x : StoreM α} {Q : α → Prop} {F : Error → Prop}
    (h : Spec (LocalStore.CoherentOver store derivers s₀.db) x
      (fun a t => LocalStore.CoherentOver store derivers s₀.db t ∧ Q a)
      (fun e t => LocalStore.CoherentOver store derivers s₀.db t ∧ F e)) :
    Spec (Searching store T derivers db₀ s₀ alive passed) (onStore env x)
      (fun a t => Searching store T derivers db₀ s₀ alive passed t ∧ Q a)
      (fun e t => Searching store T derivers db₀ s₀ alive passed t ∧ ∃ e', e = .error e' ∧ F e') := by
  have hset : ∀ s t, Searching store T derivers db₀ s₀ alive passed s →
      LocalStore.CoherentOver store derivers s₀.db t →
      Searching store T derivers db₀ s₀ alive passed (s.setLocalStore t) := by
    intro s t hs ht
    refine ⟨?_, ht, hs.complete, hs.sound, hs.temp, hs.alive_eq, hs.passed_eq, hs.timely⟩
    rw [← hs.untouched]
    show ((t.db, s.files, s.links), _) = ((s.db, s.files, s.links), _)
    rw [ht.db_eq, show s.db = s₀.db from hs.coherent.db_eq]
    rfl
  refine Spec.seq (interfere_spec henv) fun _ => ?_
  intro s hs
  have hrun := h s.toLocalStore hs.coherent
  unfold callStore
  cases hx : x s.toLocalStore with
  | ok a t =>
      rw [hx] at hrun
      exact ⟨hset s t hs hrun.1, hrun.2⟩
  | error e t =>
      rw [hx] at hrun
      exact ⟨hset s t hs hrun.1, e, rfl, hrun.2⟩

end Steps

-- ============================================================================
-- Finding what is alive
-- ============================================================================

section Alive

variable (store : StoreDirConfig) (options : GCOptions) (settings : GCSettings) (db : Db)

/-- The edges of the closure that is alive with a path. -/
def Follows (p q : StorePath) : Prop :=
  (LocalStore.PathRefers store db p q ∧ q ≠ p) ∨
    (options.includeDerivers settings = true ∧ LocalStore.DeriverIs store db p (some q) ∧
      db.Valid (store.printStorePath q))

variable {store} {options} {settings} {db} {T : Finset Bytes → Prop} {derivers : Bool}
  {db₀ : Db} {s₀ : Collecting} {alive passed : Finset StorePath} (henv : OnlyTimelyRoots env T)
  (hprinted : LocalStore.PrintedRows store s₀.db)
  (hderivers : options.includeDerivers settings = true → derivers = true)

theorem Follows.valid {p q : StorePath} (h : Follows store options settings db p q) :
    db.Valid (store.printStorePath p) ∧ db.Valid (store.printStorePath q) := by
  rcases h with ⟨href, -⟩ | ⟨-, ⟨row, hrow, -⟩, hvalid⟩
  · exact href.valid
  · exact ⟨Db.valid_of_query hrow, hvalid⟩

include henv hprinted hderivers

theorem queryDeps_spec (path : StorePath) :
    Spec (Searching store T derivers db₀ s₀ alive passed)
      (queryDeps store env (options.includeDerivers settings) path)
      (fun S t => Searching store T derivers db₀ s₀ alive passed t ∧
        ∀ q, q ∈ S ↔ Follows store options settings s₀.db path q)
      (fun e t => Searching store T derivers db₀ s₀ alive passed t ∧
        ∃ e', e = .error e' ∧ LocalStore.QueryFails store s₀.db path e') := by
  refine Spec.seq (onStore_spec henv (LocalStore.CoherentOver.queryPathInfo hprinted path))
    fun info => Spec.given fun htold => ?_
  have hrefs : ∀ q, q ∈ info.references.erase path ↔
      LocalStore.PathRefers store s₀.db path q ∧ q ≠ path := by
    intro q
    rw [Finset.mem_erase, htold.2.2.1 q, and_comm]
  have hderiver : options.includeDerivers settings = true →
      LocalStore.DeriverIs store s₀.db path info.deriver := fun h => htold.2.2.2 (hderivers h)
  -- without an edge to a deriver
  have hplain : (∀ q, ¬ (options.includeDerivers settings = true ∧
      LocalStore.DeriverIs store s₀.db path (some q) ∧ s₀.db.Valid (store.printStorePath q))) →
      ∀ q, q ∈ info.references.erase path ↔ Follows store options settings s₀.db path q :=
    fun hnone q => (hrefs q).trans (or_iff_left (hnone q)).symm
  cases hd : info.deriver with
  | none =>
      refine Spec.ret fun t ht => ⟨ht, hplain ?_⟩
      rintro q ⟨hinc, hq, -⟩
      rw [hd] at hderiver
      cases hq.unique (hderiver hinc)
  | some deriver =>
      rw [hd] at hderiver
      refine Spec.cond (fun hinc => ?_) fun hinc =>
        Spec.ret fun t ht => ⟨ht, hplain fun q h => hinc h.1⟩
      refine Spec.seq ((onStore_spec henv (F := fun _ => False)
        ((LocalStore.CoherentOver.isValidPath deriver).weaken (fun _ h => h) (fun _ _ h => h)
          fun _ _ h => h.elim)).weaken (fun _ h => h) (fun _ _ h => h) ?_) fun valid =>
        Spec.given fun hvalid => ?_
      · rintro e t ⟨-, -, -, ⟨⟩⟩
      refine Spec.cond (fun hv => Spec.ret fun t ht => ⟨ht, fun q => ?_⟩) fun hv =>
        Spec.ret fun t ht => ⟨ht, hplain ?_⟩
      · rw [Finset.mem_insert, hrefs, or_comm]
        refine or_congr_right ⟨?_, ?_⟩
        · rintro rfl
          exact ⟨hinc, hderiver hinc, hvalid.mp hv⟩
        · rintro ⟨-, hq, -⟩
          exact Option.some.inj (hq.unique (hderiver hinc))
      · rintro q ⟨-, hq, hqvalid⟩
        cases hq.unique (hderiver hinc)
        exact hv (hvalid.mpr hqvalid)

omit henv hprinted hderivers in
/-- What is reached from a path that is not valid is the path. -/
theorem follows_invalid {p q : StorePath} (hp : ¬ db.Valid (store.printStorePath p)) :
    ReflTransGen (Follows store options settings db) p q ↔ q = p := by
  constructor
  · intro h
    rcases h.cases_head with rfl | ⟨r, hr, -⟩
    · rfl
    · exact absurd hr.valid.1 hp
  · rintro rfl
    exact ReflTransGen.refl

omit henv hprinted hderivers in
theorem addAlive_spec (paths : Finset StorePath) {E : GCThrow → Collecting → Prop} :
    Spec (Searching store T derivers db₀ s₀ alive passed) (addAlive paths)
      (fun _ => Searching store T derivers db₀ s₀ (paths ∪ alive) passed) E :=
  Spec.change fun _ hs => ⟨hs.untouched, hs.coherent, hs.complete, hs.sound, hs.temp,
    congrArg (paths ∪ ·) hs.alive_eq, hs.passed_eq, hs.timely⟩

/-- `markAlive` adds what the path follows to what is alive. -/
theorem markAlive_spec (path : StorePath) :
    Spec (Searching store T derivers db₀ s₀ alive passed)
      (markAlive store env options settings path)
      (fun _ t => ∃ alive', Searching store T derivers db₀ s₀ alive' passed t ∧ ∀ q, q ∈ alive' ↔
        q ∈ alive ∨ ReflTransGen (Follows store options settings s₀.db) path q)
      (fun e t => ∃ alive', Searching store T derivers db₀ s₀ alive' passed t ∧
        Broken store s₀.db e) := by
  refine Spec.seq (addAlive_spec {path}) fun _ => ?_
  have hclosure : Spec (Searching store T derivers db₀ s₀ ({path} ∪ alive) passed) _ _ _ :=
    closureWorkers_spec (queryDeps_spec henv hprinted hderivers) path
  have hmarked : Spec (Searching store T derivers db₀ s₀ ({path} ∪ alive) passed) (do
        let closure ← computeFSClosure store env path (options.includeDerivers settings)
        addAlive closure)
      (fun _ t => ∃ alive', Searching store T derivers db₀ s₀ alive' passed t ∧ ∀ q, q ∈ alive' ↔
        q ∈ alive ∨ ReflTransGen (Follows store options settings s₀.db) path q)
      (fun e t => Searching store T derivers db₀ s₀ ({path} ∪ alive) passed t ∧
        ∃ q, ReflTransGen (Follows store options settings s₀.db) path q ∧
          ∃ e', e = .error e' ∧ LocalStore.QueryFails store s₀.db q e') := by
    refine Spec.seq hclosure fun S => Spec.given fun hS => (addAlive_spec S).weaken (fun _ h => h)
      (fun _ t ht => ⟨_, ht, fun q => ?_⟩) fun _ _ h => h
    rw [Finset.mem_union, Finset.mem_union, Finset.mem_singleton, hS]
    constructor
    · rintro (h | rfl | h)
      · exact .inr h
      · exact .inr ReflTransGen.refl
      · exact .inl h
    · rintro (h | h)
      · exact .inr (.inr h)
      · exact .inl h
  refine orCatch_spec hmarked ?_ ?_
  · -- only the path itself can be missing
    rintro e t ⟨ht, q, hq, e', rfl, hfails⟩ hcaught
    cases e' with
    | invalidPath msg =>
        have hqp : q = path := by
          rcases hq.cases_tail with heq | ⟨r, -, hr⟩
          · exact heq
          · exact absurd hr.valid.2 hfails
        subst hqp
        refine ⟨_, ht, fun r => ?_⟩
        rw [Finset.mem_union, Finset.mem_singleton, follows_invalid hfails, or_comm]
    | _ => cases hcaught
  · rintro e t ⟨ht, q, -, e', rfl, hfails⟩ hcaught
    cases e' with
    | invalidPath msg => cases hcaught
    | _ => exact ⟨_, ht, _, rfl, hfails⟩

end Alive

-- ============================================================================
-- Queues of a search
-- ============================================================================

theorem enqueueSets_wellQueued {visited : Finset StorePath} {todo : List StorePath}
    (h : WellQueued visited todo) (sets : List (Finset StorePath)) :
    WellQueued (enqueueSets sets visited todo).1 (enqueueSets sets visited todo).2 ∧
      expanded (enqueueSets sets visited todo).1 (enqueueSets sets visited todo).2 =
        expanded visited todo ∧
      ∀ q, q ∈ (enqueueSets sets visited todo).1 ↔ q ∈ visited ∨ ∃ S ∈ sets, q ∈ S := by
  induction sets generalizing visited todo with
  | nil => exact ⟨h, rfl, fun q => by simp [enqueueSets]⟩
  | cons S sets ih =>
      obtain ⟨hq, hexp, hmem⟩ := ih (h.enqueue S)
      refine ⟨hq, hexp.trans (expanded_enqueue S), fun q => (hmem q).trans ?_⟩
      rw [Finset.mem_union, or_assoc]
      refine or_congr_right ?_
      simp only [List.mem_cons, exists_eq_or_imp]

-- ============================================================================
-- The search
-- ============================================================================

section Search

variable (store : StoreDirConfig) (options : GCOptions) (settings : GCSettings) (db : Db)

/-- A database that is left of another one. -/
structure Fewer (db₀ db : Db) : Prop where
  valid : ∀ t, db.Valid t → db₀.Valid t
  refers : ∀ p q, LocalStore.PathRefers store db p q → LocalStore.PathRefers store db₀ p q
  derivers : ∀ t u, t ∈ db.queryValidDerivers u → t ∈ db₀.queryValidDerivers u

/-- The edges of the search: to referrers, and to derivers if these are to be
    kept together with their outputs. -/
def Pulls (p q : StorePath) : Prop :=
  LocalStore.PathRefers store db q p ∨
    (options.visitDerivers settings = true ∧ db.Valid (store.printStorePath p) ∧
      store.printStorePath q ∈ db.queryValidDerivers (store.printStorePath p))

variable (T : Finset Bytes → Prop) (derivers : Bool) (db₀ : Db) (s₀ : Collecting)

/-- Why a search is given up at a path, and what is alive then. -/
inductive GivenUp (start p : StorePath) (alive alive' : Finset StorePath) : Prop where
  | alive : p ∈ alive → (∀ q, q ∈ alive' ↔ q = start ∨ q ∈ alive) →
      GivenUp start p alive alive'
  | root : p ∉ s₀.dead → (p ∈ s₀.roots ∨ ∃ tempRoots, T tempRoots ∧ p.hashPart ∈ tempRoots) →
      (∀ q, q ∈ alive' ↔ (q = start ∨ q ∈ alive) ∨
        ReflTransGen (Follows store options settings s₀.db) p q) →
      GivenUp start p alive alive'
  | excluded : options.excluded p = true → alive' = alive → GivenUp start p alive alive'

/-- A path at which a search is not given up. -/
structure Cleared (p : StorePath) (alive passed : Finset StorePath) : Prop where
  not_alive : p ∉ alive
  not_root : p ∉ s₀.roots
  not_excluded : options.excluded p = false
  passed : p ∈ passed

/-- What a visit that queues some sets has found. -/
structure Expands (path : StorePath) (sets : List (Finset StorePath))
    (alive passed passed' : Finset StorePath) : Prop where
  passed_mono : passed ⊆ passed'
  cleared : path ∈ s₀.dead ∨ Cleared options s₀ path alive passed'
  complete : path ∉ s₀.dead → s₀.db.Valid (store.printStorePath path) →
    ∀ q, Pulls store options settings s₀.db path q → ∃ S ∈ sets, q ∈ S
  sound : ∀ S ∈ sets, ∀ q ∈ S, Pulls store options settings db₀ path q

/-- What an exception leaves. -/
def SearchBreaks (e : GCThrow) (t : Collecting) : Prop :=
  ∃ alive' passed', Searching store T derivers db₀ s₀ alive' passed' t ∧ Broken store s₀.db e

/-- What a search that is not given up has visited. -/
structure Found (start : StorePath) (alive passed visited : Finset StorePath) : Prop where
  start_mem : start ∈ visited
  reached : ∀ p ∈ visited, ReflTransGen (Pulls store options settings db₀) start p
  cleared : ∀ p ∈ visited, p ∈ s₀.dead ∨ Cleared options s₀ p alive passed
  closed : ∀ p ∈ visited, p ∉ s₀.dead → s₀.db.Valid (store.printStorePath p) →
    ∀ q, Pulls store options settings s₀.db p q → q ∈ visited

/-- How a search ends. -/
def SearchEnds (start : StorePath) (alive : Finset StorePath) (r : Option (Finset StorePath))
    (t : Collecting) : Prop :=
  (r = none ∧ ∃ p alive' passed', Searching store T derivers db₀ s₀ alive' passed' t ∧
    ReflTransGen (Pulls store options settings db₀) start p ∧
    GivenUp store options settings T s₀ start p alive alive' ∧
    (p = start ∨ start ∈ s₀.dead ∨ Cleared options s₀ start alive passed')) ∨
  ∃ visited passed', r = some visited ∧ Searching store T derivers db₀ s₀ alive passed' t ∧
    Found store options settings db₀ s₀ start alive passed' visited

variable {store} {options} {settings} {T : Finset Bytes → Prop} {derivers : Bool}
  {db₀ : Db} {s₀ : Collecting} {alive passed : Finset StorePath} (henv : OnlyTimelyRoots env T)
  (hprinted : LocalStore.PrintedRows store s₀.db) (hfewer : Fewer store db₀ s₀.db)

include henv hprinted hfewer

theorem cachedReferrers_spec (path : StorePath) :
    Spec (Searching store T derivers db₀ s₀ alive passed) (cachedReferrers store env path)
      (fun R t => Searching store T derivers db₀ s₀ alive passed t ∧
        (∀ q, LocalStore.PathRefers store s₀.db q path → q ∈ R) ∧
        ∀ q ∈ R, LocalStore.PathRefers store db₀ q path)
      (fun e t => Searching store T derivers db₀ s₀ alive passed t ∧ Broken store s₀.db e) := by
  refine Spec.look fun t ht => ?_
  cases hcache : t.referrersCache path with
  | some R =>
      refine Spec.ret ?_
      rintro _ rfl
      exact ⟨ht, ht.complete path R hcache, ht.sound path R hcache⟩
  | none =>
      have hquery : Spec (Searching store T derivers db₀ s₀ alive passed) _ _ _ :=
        onStore_spec henv (LocalStore.CoherentOver.queryReferrers hprinted path)
      refine (Spec.seq (hquery.weaken (fun _ h => h) (fun _ _ h => h) ?_) fun R =>
        Spec.given fun hR => ?_).weaken (fun s hs => hs ▸ ht) (fun _ _ h => h) fun _ _ h => h
      · rintro e t ⟨ht, e', rfl, hpasses, hread⟩
        exact ⟨ht, e', rfl, hpasses, hread⟩
      have hcached : ∀ (s : Collecting) p R',
          Function.update s.referrersCache path (some R) p = some R' →
          p = path ∧ R' = R ∨ s.referrersCache p = some R' := by
        intro s p R' hp
        by_cases heq : p = path
        · rw [heq, Function.update_self] at hp
          exact .inl ⟨heq, (Option.some.inj hp).symm⟩
        · rw [Function.update_of_ne heq] at hp
          exact .inr hp
      refine Spec.seq (Q := fun _ => Searching store T derivers db₀ s₀ alive passed)
        (Spec.change fun s hs => ⟨hs.untouched, hs.coherent, ?_, ?_, hs.temp, hs.alive_eq,
          hs.passed_eq, hs.timely⟩) fun _ => ?_
      · intro p R' hp q hq
        rcases hcached s p R' hp with ⟨rfl, rfl⟩ | hp
        · exact (hR q).mpr hq
        · exact hs.complete p R' hp q hq
      · intro p R' hp q hq
        rcases hcached s p R' hp with ⟨rfl, rfl⟩ | hp
        · exact hfewer.refers q _ ((hR q).mp hq)
        · exact hs.sound p R' hp q hq
      · exact Spec.ret fun s hs => ⟨hs, fun q hq => (hR q).mpr hq, fun q hq =>
          hfewer.refers q _ ((hR q).mp hq)⟩

/-- The paths that the search goes on to. -/
theorem nextPaths_spec (path : StorePath) :
    Spec (Searching store T derivers db₀ s₀ alive passed) (nextPaths store env options settings path)
      (fun sets t => Searching store T derivers db₀ s₀ alive passed t ∧
        (s₀.db.Valid (store.printStorePath path) →
          ∀ q, Pulls store options settings s₀.db path q → ∃ S ∈ sets, q ∈ S) ∧
        ∀ S ∈ sets, ∀ q ∈ S, Pulls store options settings db₀ path q)
      (fun e t => Searching store T derivers db₀ s₀ alive passed t ∧ Broken store s₀.db e) := by
  refine Spec.seq ((onStore_spec henv (F := fun _ => False)
    ((LocalStore.CoherentOver.isValidPath path).weaken (fun _ h => h) (fun _ _ h => h)
      fun _ _ h => h.elim)).weaken (fun _ h => h) (fun _ _ h => h) ?_) fun valid =>
        Spec.given fun hvalid => ?_
  · rintro e t ⟨-, -, -, ⟨⟩⟩
  refine Spec.cond (fun hv => ?_) fun hv => Spec.ret fun t ht =>
    ⟨ht, fun h => absurd (hvalid.mpr h) hv, fun S hS => absurd hS List.not_mem_nil⟩
  refine Spec.seq (cachedReferrers_spec henv hprinted hfewer path) fun referrers =>
    Spec.given fun hreferrers => ?_
  refine Spec.cond (fun hvisit => ?_) fun hvisit => ?_
  · refine Spec.seq ((onStore_spec henv
      (LocalStore.CoherentOver.queryValidDerivers hprinted path)).weaken (fun _ h => h)
        (fun _ _ h => h) ?_) fun found => Spec.given fun hfound => ?_
    · rintro e t ⟨ht, e', rfl, hpasses, hread⟩
      exact ⟨ht, e', rfl, hpasses, hread⟩
    refine Spec.ret fun t ht => ⟨ht, fun _ q hq => ?_, fun S hS q hq => ?_⟩
    · rcases hq with hq | ⟨-, -, hq⟩
      · exact ⟨referrers, List.mem_cons_self, hreferrers.1 q hq⟩
      · exact ⟨found, List.mem_cons_of_mem _ List.mem_cons_self, (hfound q).mpr hq⟩
    · rcases List.mem_cons.mp hS with rfl | hS
      · exact .inl (hreferrers.2 q hq)
      · rw [List.mem_singleton.mp hS] at hq
        exact .inr ⟨hvisit, hfewer.valid _ (hvalid.mp hv), hfewer.derivers _ _ ((hfound q).mp hq)⟩
  · refine Spec.ret fun t ht => ⟨ht, fun _ q hq => ?_, fun S hS q hq => ?_⟩
    · rcases hq with hq | hv
      · exact ⟨referrers, List.mem_cons_self, hreferrers.1 q hq⟩
      · exact absurd hv.1 hvisit
    · rw [List.mem_singleton.mp hS] at hq
      exact .inl (hreferrers.2 q hq)

omit hprinted hfewer in
/-- A path that is no temporary root is remembered as one that has passed. -/
theorem checkTempRoot_spec (path : StorePath) {E : GCThrow → Collecting → Prop} :
    Spec (Searching store T derivers db₀ s₀ alive passed) (checkTempRoot env path)
      (fun isRoot t => if isRoot then
          Searching store T derivers db₀ s₀ alive passed t ∧
            ∃ tempRoots, T tempRoots ∧ path.hashPart ∈ tempRoots
        else Searching store T derivers db₀ s₀ alive (insert path passed) t) E := by
  refine Spec.seq (interfere_spec henv) fun _ => Spec.look fun t ht => ?_
  refine Spec.cond (fun hroot => Spec.ret ?_) fun hroot => ?_
  · rintro _ rfl
    exact ⟨ht, _, ht.temp, hroot⟩
  · refine Spec.seq (Q := fun _ => Searching store T derivers db₀ s₀ alive (insert path passed))
      (Spec.change ?_) fun _ => Spec.ret fun _ hs => hs
    rintro _ rfl
    refine ⟨ht.untouched, ht.coherent, ht.complete, ht.sound, ht.temp, ht.alive_eq,
      congrArg (insert path) ht.passed_eq, fun p hp => ?_⟩
    rcases Finset.mem_insert.mp hp with rfl | hp
    · exact hroot
    · exact ht.timely p hp

variable (hderivers : options.includeDerivers settings = true → derivers = true)
include hderivers

omit hfewer in
/-- Giving up at a root. -/
theorem giveUp_spec {start path : StorePath} (hdead : path ∉ s₀.dead)
    (hroot : path ∈ s₀.roots ∨ ∃ tempRoots, T tempRoots ∧ path.hashPart ∈ tempRoots) :
    Spec (Searching store T derivers db₀ s₀ alive passed)
      (do
        addAlive {start}
        markAlive store env options settings path
        pure Visit.giveUp)
      (fun visit t => visit = .giveUp ∧ ∃ alive', Searching store T derivers db₀ s₀ alive' passed t ∧
        GivenUp store options settings T s₀ start path alive alive')
      (SearchBreaks store T derivers db₀ s₀) := by
  refine Spec.seq (addAlive_spec {start}) fun _ => ?_
  refine Spec.seq ((markAlive_spec henv hprinted hderivers path).weaken (fun _ h => h)
    (fun _ _ h => h) fun _ _ ⟨alive', h⟩ => ⟨alive', passed, h⟩) fun _ => Spec.ret ?_
  rintro t ⟨alive', ht, halive⟩
  refine ⟨rfl, alive', ht, .root hdead hroot fun q => ?_⟩
  rw [halive, Finset.mem_union, Finset.mem_singleton]

/-- What one visit of the search does. -/
theorem visitPath_spec (start path : StorePath) :
    Spec (Searching store T derivers db₀ s₀ alive passed)
      (visitPath store env options settings start path)
      (fun visit t => (visit = .giveUp ∧ ∃ alive', Searching store T derivers db₀ s₀ alive' passed t ∧
          GivenUp store options settings T s₀ start path alive alive') ∨
        ∃ sets passed', visit = .enqueue sets ∧
          Searching store T derivers db₀ s₀ alive passed' t ∧
          Expands store options settings db₀ s₀ path sets alive passed passed')
      (SearchBreaks store T derivers db₀ s₀) := by
  refine Spec.look fun t ht => Spec.weaken (P := Searching store T derivers db₀ s₀ alive passed)
    ?_ (fun s hs => hs ▸ ht) (fun _ _ h => h) fun _ _ h => h
  have hdead : t.dead = s₀.dead := congrArg (fun u => u.2.2.1) ht.untouched
  have hroots : t.roots = s₀.roots := congrArg (fun u => u.2.1) ht.untouched
  rw [hdead, hroots, ht.alive_eq]
  refine Spec.cond (fun halive => ?_) fun halive => Spec.cond (fun hd => ?_) fun hd =>
    Spec.cond (fun hroot => ?_) fun hroot => Spec.cond (fun hexcluded => ?_) fun hexcluded => ?_
  · refine Spec.seq (addAlive_spec {start}) fun _ => Spec.ret fun s hs => ?_
    refine .inl ⟨rfl, _, hs, .alive halive fun q => ?_⟩
    rw [Finset.mem_union, Finset.mem_singleton]
  · refine Spec.ret fun s hs => .inr ⟨[], passed, rfl, hs, Finset.Subset.refl _, .inl hd, ?_, ?_⟩
    · exact fun hnot => absurd hd hnot
    · exact fun S hS => absurd hS List.not_mem_nil
  · exact (giveUp_spec henv hprinted hderivers hd (.inl hroot)).weaken (fun _ h => h)
      (fun _ _ h => .inl h) fun _ _ h => h
  · exact Spec.ret fun s hs => .inl ⟨rfl, alive, hs, .excluded hexcluded rfl⟩
  · refine Spec.seq (checkTempRoot_spec henv path) fun isRoot => ?_
    cases isRoot with
    | true =>
        exact Spec.given fun htemp => (giveUp_spec henv hprinted hderivers hd (.inr htemp)).weaken
          (fun _ h => h) (fun _ _ h => .inl h) fun _ _ h => h
    | false =>
        refine Spec.seq ((nextPaths_spec henv hprinted hfewer path).weaken (fun _ h => h)
          (fun _ _ h => h) fun e s h => ⟨alive, insert path passed, h⟩) fun sets => Spec.ret ?_
        rintro s ⟨hs, hcomplete, hsound⟩
        refine .inr ⟨sets, insert path passed, rfl, hs, Finset.subset_insert _ _, .inr ?_, ?_, hsound⟩
        · exact ⟨halive, hroot, by simpa using hexcluded, Finset.mem_insert_self _ _⟩
        · exact fun _ => hcomplete

/-- A search is given up somewhere, or finds everything its start is reached
    from. -/
theorem search_spec (start : StorePath) :
    Spec (Searching store T derivers db₀ s₀ alive passed)
      (search store env options settings start (StorePath.limit + 1) {start} [start])
      (SearchEnds store options settings T derivers db₀ s₀ start alive)
      (SearchBreaks store T derivers db₀ s₀) := by
  -- for any point of the loop: what has been expanded is cleared, and what it pulls
  -- has been visited
  have hgo : ∀ bound visited todo passed, WellQueued visited todo →
      Bounded StorePath.limit bound visited todo → start ∈ visited →
      todo.head? = some start ∨ start ∈ expanded visited todo →
      (∀ p ∈ visited, ReflTransGen (Pulls store options settings db₀) start p) →
      (∀ p ∈ expanded visited todo, (p ∈ s₀.dead ∨ Cleared options s₀ p alive passed) ∧
        (p ∉ s₀.dead → s₀.db.Valid (store.printStorePath p) →
          ∀ q, Pulls store options settings s₀.db p q → q ∈ visited)) →
      Spec (Searching store T derivers db₀ s₀ alive passed)
        (search store env options settings start bound visited todo)
        (SearchEnds store options settings T derivers db₀ s₀ start alive)
        (SearchBreaks store T derivers db₀ s₀) := by
    intro bound
    induction bound with
    -- the bound is never used up: there are no more paths than `StorePath.limit`
    | zero => exact fun _ _ _ _ hbound => absurd rfl (hbound.ne_zero StorePath.card_le_limit)
    | succ bound ih =>
        intro visited todo passed hq hbound hstart hfirst hreach hdone
        cases todo with
        | nil =>
            rw [expanded_nil] at hdone
            refine Spec.ret fun t ht => .inr ⟨visited, passed, rfl, ht, hstart, hreach, ?_, ?_⟩
            · exact fun p hp => (hdone p hp).1
            · exact fun p hp => (hdone p hp).2
        | cons path todo =>
            have hpath := hreach path (hq.queued path List.mem_cons_self)
            refine Spec.seq (visitPath_spec henv hprinted hfewer hderivers start path) fun visit => ?_
            cases visit with
            -- a root was met, along a chain from `start`
            | giveUp =>
                refine Spec.ret fun t ht => ?_
                rcases ht with ⟨-, alive', ht, hgiven⟩ | ⟨sets, passed', hv, -⟩
                · refine .inl ⟨rfl, path, alive', passed, ht, hpath, hgiven, ?_⟩
                  exact hfirst.imp (fun heq => Option.some.inj heq) fun hmem => (hdone start hmem).1
                · cases hv
            | enqueue sets =>
                intro t ht
                rcases ht with ⟨hv, -⟩ | ⟨sets', passed', hv, ht, hexpands⟩
                · cases hv
                obtain rfl := Visit.enqueue.inj hv
                obtain ⟨hq', hexp, hmem⟩ := enqueueSets_wellQueued hq.pop sets
                refine ih _ _ passed' hq' ?_ ((hmem start).mpr (.inl hstart)) (.inr ?_) ?_ ?_ t ht
                · have hpop := hbound.pop hq
                  unfold Bounded at hpop ⊢
                  rwa [hexp]
                · rw [hexp, hq.mem_expanded_pop]
                  exact hfirst.imp (fun heq => (Option.some.inj heq).symm) id
                · intro q hqmem
                  rcases (hmem q).mp hqmem with hqmem | ⟨S, hS, hqS⟩
                  · exact hreach q hqmem
                  · exact hpath.tail (hexpands.sound S hS q hqS)
                · intro p hp
                  rw [hexp, hq.mem_expanded_pop] at hp
                  rcases hp with rfl | hp
                  · refine ⟨hexpands.cleared, fun hd hvalid q hpull => (hmem q).mpr (.inr ?_)⟩
                    exact hexpands.complete hd hvalid q hpull
                  · obtain ⟨hcleared, hclosed⟩ := hdone p hp
                    refine ⟨hcleared.imp_right fun hc => ?_, fun hd hvalid q hpull =>
                      (hmem q).mpr (.inl (hclosed hd hvalid q hpull))⟩
                    exact { hc with passed := hexpands.passed_mono hc.passed }
  refine hgo _ _ _ _ (wellQueued_start start) (bounded_start _ start)
    (Finset.mem_singleton_self start) (.inl rfl) ?_ ?_
  · intro p hp
    rw [Finset.mem_singleton.mp hp]
  · intro p hp
    rw [expanded_start] at hp
    exact absurd hp (Finset.notMem_empty p)

omit hfewer hderivers in
/-- The sort behind the search. -/
theorem topoSortPaths_spec (paths : Finset StorePath) :
    Spec (Searching store T derivers db₀ s₀ alive passed) (topoSortPaths store env paths)
      (fun sorted t => Searching store T derivers db₀ s₀ alive passed t ∧
        TopoSort.Sorted paths (LocalStore.PathRefers store s₀.db) sorted)
      (fun e t => Searching store T derivers db₀ s₀ alive passed t ∧ (Broken store s₀.db e ∨
        ∃ c, e = .error (LocalStore.cycleError store c) ∧
          TopoSort.OnCycle paths (LocalStore.PathRefers store s₀.db) c)) := by
  have hchildren : ∀ p ∈ paths, Spec (Searching store T derivers db₀ s₀ alive passed)
      (pathReferences store env p)
      (fun l t => Searching store T derivers db₀ s₀ alive passed t ∧
        (∀ q ∈ l, LocalStore.PathRefers store s₀.db p q) ∧
        ∀ q, LocalStore.PathRefers store s₀.db p q → q ∈ l)
      (fun e t => Searching store T derivers db₀ s₀ alive passed t ∧ (Broken store s₀.db e ∨
        ∃ c, e = .error (LocalStore.cycleError store c) ∧
          TopoSort.OnCycle paths (LocalStore.PathRefers store s₀.db) c)) := by
    intro p _
    refine (onStore_spec henv (LocalStore.CoherentOver.pathReferences hprinted p)).weaken
      (fun _ h => h) (fun _ _ h => h) ?_
    rintro e t ⟨ht, e', rfl, hpasses, hread⟩
    exact ⟨ht, .inl ⟨e', rfl, hpasses, hread⟩⟩
  refine Spec.seq (TopoSort.topoSort_spec _ _ hchildren) fun r => Spec.given fun hr => ?_
  cases r with
  | error c => exact Spec.raise fun t ht => ⟨ht, .inr ⟨c, rfl, hr⟩⟩
  | ok sorted => exact Spec.ret fun t ht => ⟨ht, hr⟩

end Search

end Collecting
end NixStore
