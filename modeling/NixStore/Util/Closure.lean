/-
  NixStore.Util.Closure

  `computeClosure` of `libutil/include/nix/util/closure.hh`: the closure of a
  set under edges that are asked for asynchronously.

  All handlers run on one strand, so a step of the system is one handler.  What
  has been posted and not run yet is part of the state; posted handlers are
  taken in any order here, and a call of `getEdges` completes or fails at any
  time after it was made.  That a posted handler runs at some time is left to the
  executor.

  A node that has been inserted is in exactly one place on its way: queued,
  popped, posted as a worker, or asked for (`placed`).  The counters count
  these places, and everything else follows from where nodes can be (`Inv`).
-/

import NixStore.Lib.Transition
import NixStore.Lib.OrderedSet
import Mathlib.Logic.Relation
import Mathlib.Data.Finset.Card

set_option linter.unusedSectionVars false

namespace NixStore
namespace Closure

open OrderedSet Relation

variable {α ε : Type} [LinearOrder α]

-- ============================================================================
-- Section 1: The state and its handlers
-- ============================================================================

/-- A finite graph and what `computeClosure` is called with. -/
structure Problem (α : Type) where
  nodes : Finset α
  /-- What `getEdges` gives when it does not fail. -/
  edges : α → Finset α
  edges_subset : ∀ n ∈ nodes, edges n ⊆ nodes
  startElts : Finset α
  start_subset : startElts ⊆ nodes
  /-- The contents of `res` at the call. -/
  initial : Finset α
  maxConcurrent : Nat
  concurrent_pos : 0 < maxConcurrent

/-- `State`, with what is posted to its executor and what happened so far. -/
structure State (α ε : Type) where
  res : Finset α
  pending : Nat
  inFlight : Nat
  todo : List α
  error : Option ε
  /-- The first `enqueue` is posted. -/
  starting : Bool
  /-- Posted calls of `spawnWorker`. -/
  popped : List α
  /-- Posted workers, not begun. -/
  spawned : List α
  /-- Workers that wait for `getEdges`. -/
  calling : List α
  /-- Posted calls of the completion handler. -/
  posted : List (Option ε)
  /-- Calls of the completion handler. -/
  invoked : List (Option ε)
  /-- Calls of `getEdges`. -/
  made : List α
  /-- What calls of `getEdges` threw. -/
  failures : List ε

/-- `State::complete`. -/
def complete (ex : Option ε) (s : State α ε) : State α ε :=
  { s with posted := s.posted ++ [ex] }

/-- `State::fail`. -/
def failWith (ex : ε) (s : State α ε) : State α ε :=
  if s.error.isNone then { s with error := some ex } else s

/-- `State::spawnWorker`. -/
def spawnWorker (elt : α) (s : State α ε) : State α ε :=
  { s with inFlight := s.inFlight + 1, spawned := s.spawned ++ [elt] }

/-- `State::enqueue`, for one element. -/
def enqueue (maxConcurrent : Nat) (elt : α) (s : State α ε) : State α ε :=
  if s.error.isSome then s
  else if elt ∈ s.res then s
  else
    let s := { s with res := insert elt s.res, pending := s.pending + 1 }
    if s.inFlight < maxConcurrent then spawnWorker elt s
    else { s with todo := s.todo ++ [elt] }

/-- `State::enqueue`, for a set. -/
def enqueueAll (maxConcurrent : Nat) (elts : Finset α) (s : State α ε) : State α ε :=
  (inOrder elts).foldl (fun s elt => enqueue maxConcurrent elt s) s

/-- The first branch of `State::onWorkDone`: the next node is taken out of the
    queue, and a worker for it is posted. -/
def popNext (next : α) (todo : List α) (s : State α ε) : State α ε :=
  { s with todo := todo, popped := s.popped ++ [next] }

/-- The second branch of `State::onWorkDone`. -/
def drain (s : State α ε) : State α ε :=
  let s := if s.error.isSome then { s with pending := s.pending - s.todo.length, todo := [] } else s
  if s.pending = 0 then complete s.error s else s

/-- `State::onWorkDone`. -/
def onWorkDone (s : State α ε) : State α ε :=
  let s := { s with inFlight := s.inFlight - 1, pending := s.pending - 1 }
  match s.todo, s.error with
  | next :: todo, none => popNext next todo s
  | _, _ => drain s

/-- The handlers that run on the strand. -/
inductive Handler (α ε : Type) where
  /-- The first `enqueue`. -/
  | start
  /-- The posted `spawnWorker` for a node from the queue. -/
  | respawn (elt : α)
  /-- A worker begins and calls `getEdges`. -/
  | begin (elt : α)
  /-- `getEdges` completes, and its worker goes on. -/
  | finish (elt : α)
  /-- `getEdges` fails, and its worker goes on. -/
  | failed (elt : α) (ex : ε)
  /-- The completion handler. -/
  | handle (ex : Option ε)

/-- Run a handler that has been posted, or a worker whose call is over. -/
def step [DecidableEq ε] (p : Problem α) (s : State α ε) : Handler α ε → Option (State α ε)
  | .start =>
      if s.starting then
        some (enqueueAll p.maxConcurrent p.startElts { s with starting := false })
      else none
  | .respawn elt =>
      if elt ∈ s.popped then some (spawnWorker elt { s with popped := s.popped.erase elt })
      else none
  | .begin elt =>
      if elt ∈ s.spawned then
        some { s with
          spawned := s.spawned.erase elt
          calling := s.calling ++ [elt]
          made := s.made ++ [elt] }
      else none
  | .finish elt =>
      if elt ∈ s.calling then
        some (onWorkDone (enqueueAll p.maxConcurrent (p.edges elt)
          { s with calling := s.calling.erase elt }))
      else none
  | .failed elt ex =>
      if elt ∈ s.calling then
        some (onWorkDone (failWith ex { s with
          calling := s.calling.erase elt
          failures := s.failures ++ [ex] }))
      else none
  | .handle ex =>
      if ex ∈ s.posted then
        some { s with posted := s.posted.erase ex, invoked := s.invoked ++ [ex] }
      else none

/-- The state when the initiator of `computeClosure` has returned. -/
def Problem.init (p : Problem α) : State α ε :=
  let s : State α ε :=
    { res := p.initial, pending := 0, inFlight := 0, todo := [], error := none, starting := false,
      popped := [], spawned := [], calling := [], posted := [], invoked := [], made := [],
      failures := [] }
  if p.startElts = ∅ then complete none s else { s with starting := true }

/-- `computeClosure` as a system. -/
def Problem.system [DecidableEq ε] (p : Problem α) : System (State α ε) (Handler α ε) where
  init s := s = p.init
  step := step p

/-- Nothing is left to execute. -/
def Terminal [DecidableEq ε] (p : Problem α) (s : State α ε) : Prop := ∀ h, step p s h = none

/-- What the blocking `computeClosure` does when `ctx.run` has returned. -/
def outcome (s : State α ε) : Except ε (Finset α) :=
  match s.invoked.getLast? with
  | some (some ex) => .error ex
  | _ => .ok s.res

-- ============================================================================
-- Section 2: Where nodes are
-- ============================================================================

/-- A node that a start node leads to, outside of what `res` held at the call. -/
def Problem.Reached (p : Problem α) (n : α) : Prop :=
  ∃ a ∈ p.startElts, a ∉ p.initial ∧
    ReflTransGen (fun x y => y ∈ p.edges x ∧ y ∉ p.initial) a n

/-- The nodes that have been inserted, wherever they are on their way. -/
def State.placed (s : State α ε) : List α := s.todo ++ s.popped ++ s.spawned ++ s.made

/-- What holds within a handler as well; `k` workers have their edges and have
    not been counted off yet. -/
structure Core (p : Problem α) (k : Nat) (s : State α ε) : Prop where
  inFlight_eq : s.inFlight = s.spawned.length + s.calling.length + k
  pending_eq : s.pending
    = s.todo.length + s.popped.length + s.spawned.length + s.calling.length + k
  nodup : s.placed.Nodup
  calling_nodup : s.calling.Nodup
  calling_made : ∀ n ∈ s.calling, n ∈ s.made
  placed_new : ∀ n ∈ s.placed, n ∈ s.res ∧ n ∉ p.initial
  placed_all : s.error = none → ∀ n ∈ s.res, n ∈ p.initial ∨ n ∈ s.placed
  initial_subset : p.initial ⊆ s.res
  reached : ∀ n ∈ s.res, n ∈ p.initial ∨ p.Reached n
  busy : s.todo ≠ [] → 0 < s.popped.length + s.spawned.length + s.calling.length + k

section Enqueue

variable {p : Problem α} {k : Nat} {s : State α ε} {elt : α}

/-- What inserting a node does: nothing, or the node is posted as a worker or
    queued. -/
theorem enqueue_cases (maxConcurrent : Nat) (elt : α) (s : State α ε) :
    (enqueue maxConcurrent elt s = s ∧ (s.error.isSome ∨ elt ∈ s.res)) ∨
    (s.error = none ∧ elt ∉ s.res ∧
      enqueue maxConcurrent elt s = { s with
        res := insert elt s.res
        pending := s.pending + 1
        inFlight := s.inFlight + 1
        spawned := s.spawned ++ [elt] }) ∨
    (s.error = none ∧ elt ∉ s.res ∧ maxConcurrent ≤ s.inFlight ∧
      enqueue maxConcurrent elt s = { s with
        res := insert elt s.res
        pending := s.pending + 1
        todo := s.todo ++ [elt] }) := by
  unfold enqueue
  by_cases herror : s.error.isSome
  · rw [if_pos herror]
    exact Or.inl ⟨rfl, Or.inl herror⟩
  · have hnone : s.error = none := Option.not_isSome_iff_eq_none.mp herror
    rw [if_neg herror]
    by_cases hmem : elt ∈ s.res
    · rw [if_pos hmem]
      exact Or.inl ⟨rfl, Or.inr hmem⟩
    · rw [if_neg hmem]
      dsimp only
      by_cases hroom : s.inFlight < maxConcurrent
      · rw [if_pos hroom]
        exact Or.inr (Or.inl ⟨hnone, hmem, rfl⟩)
      · rw [if_neg hroom]
        exact Or.inr (Or.inr ⟨hnone, hmem, Nat.le_of_not_lt hroom, rfl⟩)

theorem mem_placed {n : α} :
    n ∈ s.placed ↔ n ∈ s.todo ∨ n ∈ s.popped ∨ n ∈ s.spawned ∨ n ∈ s.made := by
  simp only [State.placed, List.mem_append, or_assoc]

/-- A new node is in one place more. -/
theorem Core.insert {s' : State α ε} (h : Core p k s) (hnew : elt ∉ s.res)
    (helt : elt ∉ p.initial → p.Reached elt)
    (hplaced : s'.placed.Perm (elt :: s.placed)) (hres : s'.res = Insert.insert elt s.res)
    (hcalling : s'.calling = s.calling) (hmade : s'.made = s.made) (herror : s'.error = s.error)
    (hflight : s'.inFlight = s'.spawned.length + s'.calling.length + k)
    (hpending : s'.pending
      = s'.todo.length + s'.popped.length + s'.spawned.length + s'.calling.length + k)
    (hbusy : s'.todo ≠ [] → 0 < s'.popped.length + s'.spawned.length + s'.calling.length + k) :
    Core p k s' := by
  have hinitial : elt ∉ p.initial := fun hmem => hnew (h.initial_subset hmem)
  refine ⟨hflight, hpending, ?_, hcalling ▸ h.calling_nodup, ?_, ?_, ?_, ?_, ?_, hbusy⟩
  · rw [hplaced.nodup_iff, List.nodup_cons]
    exact ⟨fun hmem => hnew (h.placed_new elt hmem).1, h.nodup⟩
  · rw [hcalling, hmade]
    exact h.calling_made
  · intro n hn
    rw [hres]
    rcases List.mem_cons.mp (hplaced.mem_iff.mp hn) with rfl | hn
    · exact ⟨Finset.mem_insert_self _ _, hinitial⟩
    · obtain ⟨hin, hout⟩ := h.placed_new n hn
      exact ⟨Finset.mem_insert_of_mem hin, hout⟩
  · intro hnone n hn
    rw [hplaced.mem_iff, List.mem_cons]
    rw [hres, Finset.mem_insert] at hn
    rcases hn with rfl | hn
    · exact Or.inr (Or.inl rfl)
    · exact (h.placed_all (herror ▸ hnone) n hn).imp_right Or.inr
  · rw [hres]
    exact h.initial_subset.trans (Finset.subset_insert _ _)
  · intro n hn
    rw [hres, Finset.mem_insert] at hn
    rcases hn with rfl | hn
    · exact Or.inr (helt hinitial)
    · exact h.reached n hn

theorem enqueue_core (h : Core p k s) (helt : elt ∉ p.initial → p.Reached elt) :
    Core p k (enqueue p.maxConcurrent elt s) := by
  rcases enqueue_cases p.maxConcurrent elt s with ⟨heq, -⟩ | ⟨-, hnew, heq⟩ | ⟨-, hnew, hfull, heq⟩
  · rw [heq]
    exact h
  · have hflight := h.inFlight_eq
    have hpending := h.pending_eq
    rw [heq]
    refine h.insert hnew helt ?_ rfl rfl rfl rfl ?_ ?_ ?_
    · show (s.todo ++ s.popped ++ (s.spawned ++ [elt]) ++ s.made).Perm
        (elt :: (s.todo ++ s.popped ++ s.spawned ++ s.made))
      rw [← List.append_assoc, List.append_assoc]
      exact List.perm_middle
    · show s.inFlight + 1 = (s.spawned ++ [elt]).length + s.calling.length + k
      rw [List.length_append, List.length_singleton]
      omega
    · show s.pending + 1
        = s.todo.length + s.popped.length + (s.spawned ++ [elt]).length + s.calling.length + k
      rw [List.length_append, List.length_singleton]
      omega
    · intro _
      show 0 < s.popped.length + (s.spawned ++ [elt]).length + s.calling.length + k
      rw [List.length_append, List.length_singleton]
      omega
  · have hflight := h.inFlight_eq
    have hpending := h.pending_eq
    have hpos := p.concurrent_pos
    rw [heq]
    refine h.insert hnew helt ?_ rfl rfl rfl rfl hflight ?_ ?_
    · show (s.todo ++ [elt] ++ s.popped ++ s.spawned ++ s.made).Perm
        (elt :: (s.todo ++ s.popped ++ s.spawned ++ s.made))
      simp only [List.append_assoc]
      exact List.perm_middle
    · show s.pending + 1
        = (s.todo ++ [elt]).length + s.popped.length + s.spawned.length + s.calling.length + k
      rw [List.length_append, List.length_singleton]
      omega
    · intro _
      show 0 < s.popped.length + s.spawned.length + s.calling.length + k
      omega

/-- What inserting nodes leaves as it is, and what it adds. -/
structure Entered (elts : List α) (s s' : State α ε) : Prop where
  error_eq : s'.error = s.error
  starting_eq : s'.starting = s.starting
  popped_eq : s'.popped = s.popped
  calling_eq : s'.calling = s.calling
  posted_eq : s'.posted = s.posted
  invoked_eq : s'.invoked = s.invoked
  made_eq : s'.made = s.made
  failures_eq : s'.failures = s.failures
  res_mono : s.res ⊆ s'.res
  all_in : s.error = none → ∀ n ∈ elts, n ∈ s'.res
  pending_le : s.pending ≤ s'.pending
  pending_lt : s.error = none → ∀ n ∈ elts, n ∉ s.res → s.pending < s'.pending
  same : (∀ n ∈ elts, n ∈ s.res) → s' = s

theorem enqueue_entered (maxConcurrent : Nat) (elt : α) (s : State α ε) :
    Entered [elt] s (enqueue maxConcurrent elt s) := by
  have hall : ∀ {P : α → Prop}, P elt → ∀ n ∈ [elt], P n := fun h n hn =>
    List.mem_singleton.mp hn ▸ h
  rcases enqueue_cases maxConcurrent elt s with ⟨heq, hwhy⟩ | ⟨-, hnew, heq⟩ | ⟨-, hnew, -, heq⟩
  · rw [heq]
    refine ⟨rfl, rfl, rfl, rfl, rfl, rfl, rfl, rfl, Finset.Subset.refl _, ?_, Nat.le_refl _, ?_,
      fun _ => rfl⟩
    · intro hnone
      refine hall (hwhy.resolve_left fun hsome => ?_)
      rw [hnone] at hsome
      cases hsome
    · intro hnone n hn hnot
      rw [List.mem_singleton.mp hn] at hnot
      refine absurd (hwhy.resolve_left fun hsome => ?_) hnot
      rw [hnone] at hsome
      cases hsome
  · rw [heq]
    exact ⟨rfl, rfl, rfl, rfl, rfl, rfl, rfl, rfl, Finset.subset_insert _ _,
      fun _ => hall (Finset.mem_insert_self _ _), Nat.le_succ _, fun _ _ _ _ => Nat.lt_succ_self _,
      fun h => absurd (h elt (List.mem_singleton.mpr rfl)) hnew⟩
  · rw [heq]
    exact ⟨rfl, rfl, rfl, rfl, rfl, rfl, rfl, rfl, Finset.subset_insert _ _,
      fun _ => hall (Finset.mem_insert_self _ _), Nat.le_succ _, fun _ _ _ _ => Nat.lt_succ_self _,
      fun h => absurd (h elt (List.mem_singleton.mpr rfl)) hnew⟩

theorem Entered.trans {elts : List α} {s' s'' : State α ε} (h : Entered [elt] s s')
    (h' : Entered elts s' s'') : Entered (elt :: elts) s s'' where
  error_eq := h'.error_eq.trans h.error_eq
  starting_eq := h'.starting_eq.trans h.starting_eq
  popped_eq := h'.popped_eq.trans h.popped_eq
  calling_eq := h'.calling_eq.trans h.calling_eq
  posted_eq := h'.posted_eq.trans h.posted_eq
  invoked_eq := h'.invoked_eq.trans h.invoked_eq
  made_eq := h'.made_eq.trans h.made_eq
  failures_eq := h'.failures_eq.trans h.failures_eq
  res_mono := h.res_mono.trans h'.res_mono
  all_in := by
    intro hnone n hn
    rcases List.mem_cons.mp hn with rfl | hn
    · exact h'.res_mono (h.all_in hnone n (List.mem_singleton.mpr rfl))
    · exact h'.all_in (h.error_eq.trans hnone) n hn
  pending_le := Nat.le_trans h.pending_le h'.pending_le
  pending_lt := by
    intro hnone n hn hnew
    rcases List.mem_cons.mp hn with rfl | hn
    · exact Nat.lt_of_lt_of_le (h.pending_lt hnone n (List.mem_singleton.mpr rfl) hnew) h'.pending_le
    · by_cases hmem : n ∈ s'.res
      · -- then the first element was inserted, or `n` was there already
        by_cases helt : elt ∈ s.res
        · have hsame := h.same fun m hm => List.mem_singleton.mp hm ▸ helt
          exact absurd (hsame ▸ hmem) hnew
        · exact Nat.lt_of_lt_of_le
            (h.pending_lt hnone elt (List.mem_singleton.mpr rfl) helt) h'.pending_le
      · exact Nat.lt_of_le_of_lt h.pending_le (h'.pending_lt (h.error_eq.trans hnone) n hn hmem)
  same := by
    intro hall
    have hfirst := h.same fun m hm =>
      List.mem_singleton.mp hm ▸ hall elt List.mem_cons_self
    rw [hfirst] at h'
    exact (h'.same fun n hn => hall n (List.mem_cons_of_mem _ hn))

theorem Entered.refl (s : State α ε) : Entered [] s s :=
  ⟨rfl, rfl, rfl, rfl, rfl, rfl, rfl, rfl, Finset.Subset.refl _,
    fun _ _ hn => absurd hn List.not_mem_nil, Nat.le_refl _,
    fun _ _ hn => absurd hn List.not_mem_nil, fun _ => rfl⟩

theorem foldl_entered (maxConcurrent : Nat) (elts : List α) (s : State α ε) :
    Entered elts s (elts.foldl (fun s elt => enqueue maxConcurrent elt s) s) := by
  induction elts generalizing s with
  | nil => exact Entered.refl s
  | cons elt elts ih => exact (enqueue_entered maxConcurrent elt s).trans (ih _)

theorem enqueueAll_entered (maxConcurrent : Nat) (elts : Finset α) (s : State α ε) :
    Entered (inOrder elts) s (enqueueAll maxConcurrent elts s) := foldl_entered _ _ s

theorem enqueueAll_core (h : Core p k s) (elts : Finset α)
    (helts : ∀ n ∈ elts, n ∉ p.initial → p.Reached n) :
    Core p k (enqueueAll p.maxConcurrent elts s) := by
  have hgo : ∀ (l : List α) (s : State α ε), Core p k s →
      (∀ n ∈ l, n ∉ p.initial → p.Reached n) →
      Core p k (l.foldl (fun s elt => enqueue p.maxConcurrent elt s) s) := by
    intro l
    induction l with
    | nil => exact fun s h _ => h
    | cons elt l ih =>
        intro s h hl
        exact ih _ (enqueue_core h (hl elt List.mem_cons_self))
          fun n hn => hl n (List.mem_cons_of_mem _ hn)
  exact hgo _ s h fun n hn => helts n (mem_inOrder.mp hn)

end Enqueue

-- ============================================================================
-- Section 3: The invariant
-- ============================================================================

/-- What holds between handlers. -/
structure Inv (p : Problem α) (s : State α ε) : Prop where
  core : Core p 0 s
  start_in : s.starting = false → p.startElts ⊆ s.res
  closed : s.error = none → ∀ n ∈ s.made, n ∉ s.calling → p.edges n ⊆ s.res
  error_eq : s.error = s.failures.head?
  drained : s.error ≠ none → s.todo = []
  fresh : s.starting = true → p.startElts ≠ ∅ ∧
    s.res = p.initial ∧ s.placed = [] ∧ s.posted = [] ∧ s.invoked = [] ∧ s.failures = []
  completed : s.posted = [] ∧ s.invoked = [] ∨
    s.pending = 0 ∧ s.starting = false ∧
      ((s.posted = [s.error] ∧ s.invoked = []) ∨ (s.posted = [] ∧ s.invoked = [s.error]))
  signalled : s.starting = false → s.pending = 0 →
    s.posted ≠ [] ∨ s.invoked ≠ [] ∨ p.startElts ≠ ∅ ∧ p.startElts ⊆ p.initial
  blamed : s.failures ≠ [] → s.made ≠ []

variable {p : Problem α} {s s' : State α ε}

theorem inv_init : Inv p (p.init : State α ε) := by
  have hcore : ∀ (starting : Bool) (posted : List (Option ε)), Core p 0
      ({ res := p.initial, pending := 0, inFlight := 0, todo := [], error := none,
         starting := starting, popped := [], spawned := [], calling := [], posted := posted,
         invoked := [], made := [], failures := [] } : State α ε) := by
    intro starting posted
    exact ⟨rfl, rfl, List.nodup_nil, List.nodup_nil, fun n hn => absurd hn List.not_mem_nil,
      fun n hn => absurd hn List.not_mem_nil, fun _ n hn => Or.inl hn, Finset.Subset.refl _,
      fun n hn => Or.inl hn, fun h => absurd rfl h⟩
  unfold Problem.init
  dsimp only
  by_cases hempty : p.startElts = ∅
  · rw [if_pos hempty]
    refine ⟨hcore false [none], ?_, ?_, rfl, fun h => absurd rfl h, (fun h => by cases h), ?_, ?_,
      fun h => absurd rfl h⟩
    · intro _
      rw [hempty]
      exact Finset.empty_subset _
    · exact fun _ n hn => absurd hn List.not_mem_nil
    · exact Or.inr ⟨rfl, rfl, Or.inl ⟨rfl, rfl⟩⟩
    · exact fun _ _ => Or.inl (List.cons_ne_nil _ _)
  · rw [if_neg hempty]
    refine ⟨hcore true [], (fun h => by cases h), ?_, rfl, fun h => absurd rfl h, ?_,
      Or.inl ⟨rfl, rfl⟩, (fun h => by cases h), fun h => absurd rfl h⟩
    · exact fun _ n hn => absurd hn List.not_mem_nil
    · exact fun _ => ⟨hempty, rfl, rfl, rfl, rfl, rfl⟩

/-- Nodes that stay in the graph. -/
theorem Problem.Reached.mem_nodes {n : α} (h : p.Reached n) : n ∈ p.nodes := by
  obtain ⟨a, ha, -, hpath⟩ := h
  induction hpath with
  | refl => exact p.start_subset ha
  | tail _ hedge ih => exact p.edges_subset _ ih hedge.1

theorem Problem.Reached.edge {x y : α} (h : p.Reached x) (hy : y ∈ p.edges x)
    (hnew : y ∉ p.initial) : p.Reached y := by
  obtain ⟨a, ha, hout, hpath⟩ := h
  exact ⟨a, ha, hout, hpath.tail ⟨hy, hnew⟩⟩

/-- A node that is on its way was reached. -/
theorem Core.reached_of_placed {k : Nat} (h : Core p k s) {n : α} (hn : n ∈ s.placed) :
    p.Reached n := by
  obtain ⟨hin, hout⟩ := h.placed_new n hn
  exact (h.reached n hin).resolve_left hout

/-- Moving nodes from one place to another. -/
theorem Core.move {j k : Nat} (h : Core p j s) (hres : s'.res = s.res) (herror : s'.error = s.error)
    (hplaced : s'.placed.Perm s.placed) (hcalling : s'.calling.Nodup)
    (hmade : ∀ n ∈ s'.calling, n ∈ s'.made)
    (hflight : s'.inFlight = s'.spawned.length + s'.calling.length + k)
    (hpending : s'.pending
      = s'.todo.length + s'.popped.length + s'.spawned.length + s'.calling.length + k)
    (hbusy : s'.todo ≠ [] → 0 < s'.popped.length + s'.spawned.length + s'.calling.length + k) :
    Core p k s' where
  inFlight_eq := hflight
  pending_eq := hpending
  nodup := hplaced.nodup_iff.mpr h.nodup
  calling_nodup := hcalling
  calling_made := hmade
  placed_new := by
    intro n hn
    rw [hres]
    exact h.placed_new n (hplaced.mem_iff.mp hn)
  placed_all := by
    intro hnone n hn
    rw [hplaced.mem_iff]
    exact h.placed_all (herror ▸ hnone) n (hres ▸ hn)
  initial_subset := hres ▸ h.initial_subset
  reached := hres ▸ h.reached
  busy := hbusy

/-- A worker gets the answer to its call. -/
theorem Core.answer (h : Core p 0 s) {n : α} (hn : n ∈ s.calling) :
    Core p 1 { s with calling := s.calling.erase n } := by
  have hlen := List.length_erase_of_mem hn
  have hpos := List.length_pos_of_mem hn
  have hflight := h.inFlight_eq
  have hpending := h.pending_eq
  refine ⟨?_, ?_, h.nodup, h.calling_nodup.erase n, ?_, h.placed_new, h.placed_all,
    h.initial_subset, h.reached, fun _ => Nat.succ_pos _⟩
  · show s.inFlight = s.spawned.length + (s.calling.erase n).length + 1
    omega
  · show s.pending
      = s.todo.length + s.popped.length + s.spawned.length + (s.calling.erase n).length + 1
    omega
  · exact fun m hm => h.calling_made m (List.mem_of_mem_erase hm)

theorem onWorkDone_of_error {ex : ε} (h : s.error = some ex) : onWorkDone s
    = drain { s with inFlight := s.inFlight - 1, pending := s.pending - 1 } := by
  unfold onWorkDone
  dsimp only
  rw [h]
  cases s.todo with
  | nil => rfl
  | cons next todo => rfl

/-- How a worker ends: the next node is popped, or the queue is empty or given
    up, and the last worker posts the completion. -/
theorem onWorkDone_cases (h : Core p 1 s) :
    (∃ next todo, s.error = none ∧ s.todo = next :: todo ∧ onWorkDone s = { s with
        inFlight := s.spawned.length + s.calling.length
        pending := s.pending - 1
        todo := todo
        popped := s.popped ++ [next] }) ∨
    ((s.error ≠ none ∨ s.todo = []) ∧
      ((s.popped.length + s.spawned.length + s.calling.length ≠ 0 ∧ onWorkDone s = { s with
          inFlight := s.spawned.length + s.calling.length
          pending := s.popped.length + s.spawned.length + s.calling.length
          todo := [] }) ∨
        (s.popped.length + s.spawned.length + s.calling.length = 0 ∧ onWorkDone s = { s with
          inFlight := s.spawned.length + s.calling.length
          pending := 0
          todo := []
          posted := s.posted ++ [s.error] }))) := by
  have hflight := h.inFlight_eq
  have hpending := h.pending_eq
  have hless : s.inFlight - 1 = s.spawned.length + s.calling.length := by omega
  cases herror : s.error with
  | none =>
      unfold onWorkDone
      rw [hless, herror]
      cases htodo : s.todo with
      | cons next todo => exact Or.inl ⟨next, todo, rfl, rfl, rfl⟩
      | nil =>
          right
          refine ⟨Or.inr rfl, ?_⟩
          have hleft : s.pending - 1
              = s.popped.length + s.spawned.length + s.calling.length := by
            rw [htodo, List.length_nil] at hpending
            omega
          simp only [drain, Option.isSome_none, Bool.false_eq_true, if_false, hleft]
          by_cases hzero : s.popped.length + s.spawned.length + s.calling.length = 0
          · rw [if_pos hzero, complete, hzero]
            exact Or.inr ⟨rfl, rfl⟩
          · rw [if_neg hzero]
            exact Or.inl ⟨hzero, rfl⟩
  | some ex =>
      right
      refine ⟨Or.inl (by simp), ?_⟩
      have hleft : s.pending - 1 - s.todo.length
          = s.popped.length + s.spawned.length + s.calling.length := by omega
      rw [onWorkDone_of_error herror, hless]
      simp only [drain, herror, Option.isSome_some, if_true, hleft]
      by_cases hzero : s.popped.length + s.spawned.length + s.calling.length = 0
      · rw [if_pos hzero, complete, hzero]
        exact Or.inr ⟨rfl, rfl⟩
      · rw [if_neg hzero]
        exact Or.inl ⟨hzero, rfl⟩

/-- Nodes that are still queued are given up after an error. -/
theorem Core.discard (h : Core p 1 s) (hwhy : s.error ≠ none ∨ s.todo = [])
    {pending : Nat} {posted : List (Option ε)}
    (hpending : pending = s.popped.length + s.spawned.length + s.calling.length) :
    Core p 0 { s with
      inFlight := s.spawned.length + s.calling.length
      pending := pending
      todo := []
      posted := posted } := by
  have hsub : (s.popped ++ s.spawned ++ s.made).Sublist s.placed := by
    unfold State.placed
    rw [List.append_assoc, List.append_assoc s.todo, List.append_assoc s.todo]
    simp only [List.append_assoc]
    exact List.sublist_append_right _ _
  refine ⟨rfl, ?_, ?_, h.calling_nodup, h.calling_made, ?_, ?_, h.initial_subset, h.reached,
    fun hne => absurd rfl hne⟩
  · show pending = 0 + s.popped.length + s.spawned.length + s.calling.length + 0
    omega
  · exact h.nodup.sublist hsub
  · exact fun n hn => h.placed_new n (hsub.subset hn)
  · intro hnone n hn
    have hempty : s.todo = [] := hwhy.resolve_left fun hne => hne hnone
    have hplaced := h.placed_all hnone n hn
    rw [mem_placed, hempty] at hplaced
    rw [mem_placed]
    exact hplaced

/-- The end of a worker. -/
theorem onWorkDone_inv (hcore : Core p 1 s) (hstart : p.startElts ⊆ s.res)
    (hclosed : s.error = none → ∀ n ∈ s.made, n ∉ s.calling → p.edges n ⊆ s.res)
    (herror : s.error = s.failures.head?) (hstarting : s.starting = false)
    (hposted : s.posted = []) (hinvoked : s.invoked = [])
    (hblamed : s.failures ≠ [] → s.made ≠ []) : Inv p (onWorkDone s) := by
  have hpending := hcore.pending_eq
  have hfresh : ∀ {P : Prop}, s.starting = true → P := by
    intro P htrue
    rw [hstarting] at htrue
    cases htrue
  -- the next node is taken up, or there is none, or the last one is done
  rcases onWorkDone_cases hcore with ⟨next, todo, hnone, htodo, heq⟩ |
    ⟨hwhy, ⟨hmore, heq⟩ | ⟨hzero, heq⟩⟩
  · rw [heq]
    rw [htodo, List.length_cons] at hpending
    have hcore' : Core p 0 { s with
        inFlight := s.spawned.length + s.calling.length
        pending := s.pending - 1
        todo := todo
        popped := s.popped ++ [next] } := by
      refine hcore.move rfl rfl ?_ hcore.calling_nodup hcore.calling_made rfl ?_ ?_
      · show (todo ++ (s.popped ++ [next]) ++ s.spawned ++ s.made).Perm
          (s.todo ++ s.popped ++ s.spawned ++ s.made)
        rw [htodo]
        simp only [List.append_assoc, List.cons_append, List.nil_append]
        rw [← List.append_assoc todo, ← List.append_assoc todo s.popped (s.spawned ++ s.made)]
        exact List.perm_middle
      · show s.pending - 1 = todo.length + (s.popped ++ [next]).length + s.spawned.length
          + s.calling.length + 0
        rw [List.length_append, List.length_singleton]
        omega
      · intro _
        show 0 < (s.popped ++ [next]).length + s.spawned.length + s.calling.length + 0
        rw [List.length_append, List.length_singleton]
        omega
    refine ⟨hcore', fun _ => hstart, hclosed, herror, fun hne => absurd hnone hne, hfresh,
      Or.inl ⟨hposted, hinvoked⟩, fun _ hz => ?_, hblamed⟩
    have hz' : s.pending - 1 = 0 := hz
    have hne := hcore'.pending_eq
    have hpop : (s.popped ++ [next]).length = s.popped.length + 1 := by
      rw [List.length_append, List.length_singleton]
    have hsum : s.pending - 1 = todo.length + (s.popped ++ [next]).length + s.spawned.length
        + s.calling.length + 0 := hne
    omega
  · rw [heq]
    refine ⟨hcore.discard hwhy rfl, fun _ => hstart, hclosed, herror, fun _ => rfl, hfresh,
      Or.inl ⟨hposted, hinvoked⟩, fun _ hz => absurd hz hmore, hblamed⟩
  · rw [heq]
    refine ⟨hcore.discard hwhy hzero.symm, fun _ => hstart, hclosed, herror, fun _ => rfl, hfresh,
      Or.inr ⟨rfl, hstarting, Or.inl ⟨?_, hinvoked⟩⟩, fun _ _ => Or.inl ?_, hblamed⟩
    · show s.posted ++ [s.error] = [s.error]
      rw [hposted, List.nil_append]
    · show s.posted ++ [s.error] ≠ []
      rw [hposted]
      exact List.cons_ne_nil _ _

/-- While a worker is on its way nothing has been completed. -/
theorem Inv.not_completed (h : Inv p s) (hpos : 0 < s.pending) :
    s.posted = [] ∧ s.invoked = [] := by
  rcases h.completed with hnone | ⟨hzero, -⟩
  · exact hnone
  · omega

theorem Inv.not_starting (h : Inv p s) {n : α} (hn : n ∈ s.placed) : s.starting = false := by
  cases hstarting : s.starting with
  | false => rfl
  | true =>
      rw [(h.fresh hstarting).2.2.1] at hn
      exact absurd hn List.not_mem_nil

variable [DecidableEq ε]

/-- What each handler does, and when it is there to run. -/
theorem step_cases {a : Handler α ε} (h : step p s a = some s') :
    match a with
    | .start => s.starting = true ∧
        s' = enqueueAll p.maxConcurrent p.startElts { s with starting := false }
    | .respawn elt => elt ∈ s.popped ∧
        s' = spawnWorker elt { s with popped := s.popped.erase elt }
    | .begin elt => elt ∈ s.spawned ∧ s' = { s with
        spawned := s.spawned.erase elt
        calling := s.calling ++ [elt]
        made := s.made ++ [elt] }
    | .finish elt => elt ∈ s.calling ∧
        s' = onWorkDone (enqueueAll p.maxConcurrent (p.edges elt)
          { s with calling := s.calling.erase elt })
    | .failed elt ex => elt ∈ s.calling ∧
        s' = onWorkDone (failWith ex { s with
          calling := s.calling.erase elt
          failures := s.failures ++ [ex] })
    | .handle ex => ex ∈ s.posted ∧
        s' = { s with posted := s.posted.erase ex, invoked := s.invoked ++ [ex] } := by
  cases a <;> exact (Option.ite_none_right_eq_some.mp h).imp_right fun heq =>
    (Option.some.inj heq).symm

theorem inv_start (h : Inv p s) (hstep : step p s .start = some s') : Inv p s' := by
  obtain ⟨hstarting, rfl⟩ := step_cases hstep
  obtain ⟨hsome, hres, hplaced, hposted, hinvoked, hfailures⟩ := h.fresh hstarting
  have hnone : s.error = none := by rw [h.error_eq, hfailures]; rfl
  have hcore : Core p 0 { s with starting := false } :=
    ⟨h.core.inFlight_eq, h.core.pending_eq, h.core.nodup, h.core.calling_nodup,
      h.core.calling_made, h.core.placed_new, h.core.placed_all, h.core.initial_subset,
      h.core.reached, h.core.busy⟩
  have hmade : s.made = [] := by
    rw [State.placed] at hplaced
    exact (List.append_eq_nil_iff.mp hplaced).2
  have hzero : s.pending = 0 := by
    have hpending := h.core.pending_eq
    have hcalling : s.calling = [] := by
      refine List.eq_nil_iff_forall_not_mem.mpr fun n hn => ?_
      have hin := h.core.calling_made n hn
      rw [hmade] at hin
      exact absurd hin List.not_mem_nil
    simp only [State.placed, List.append_eq_nil_iff] at hplaced
    obtain ⟨⟨⟨htodo, hpopped⟩, hspawned⟩, -⟩ := hplaced
    rw [htodo, hpopped, hspawned, hcalling] at hpending
    exact hpending
  have hent := enqueueAll_entered p.maxConcurrent p.startElts { s with starting := false }
  have hcore' := enqueueAll_core hcore p.startElts
    fun n hn hout => ⟨n, hn, hout, ReflTransGen.refl⟩
  refine ⟨hcore', ?_, ?_, ?_, ?_, ?_, ?_, ?_, ?_⟩
  · exact fun _ n hn => hent.all_in hnone n (mem_inOrder.mpr hn)
  · intro _ n hn
    rw [hent.made_eq] at hn
    exact absurd (hmade ▸ hn) List.not_mem_nil
  · rw [hent.error_eq, hent.failures_eq]
    exact h.error_eq
  · intro hne
    exact absurd (hent.error_eq.trans hnone) hne
  · intro htrue
    rw [hent.starting_eq] at htrue
    cases htrue
  · left
    exact ⟨hent.posted_eq.trans hposted, hent.invoked_eq.trans hinvoked⟩
  · intro _ hpending
    right
    right
    -- nothing was inserted
    have hall : ∀ n ∈ p.startElts, n ∈ s.res := by
      intro n hn
      by_contra hnew
      have hlt := hent.pending_lt hnone n (mem_inOrder.mpr hn) hnew
      omega
    rw [hres] at hall
    exact ⟨hsome, hall⟩
  · intro hfailed
    exact absurd (hent.failures_eq.trans hfailures) hfailed

theorem inv_respawn (h : Inv p s) {elt : α} (hstep : step p s (.respawn elt) = some s') :
    Inv p s' := by
  obtain ⟨hmem, rfl⟩ := step_cases hstep
  have hlen := List.length_erase_of_mem hmem
  have hone := List.length_pos_of_mem hmem
  have hflight := h.core.inFlight_eq
  have hpending := h.core.pending_eq
  have hstarting := h.not_starting (mem_placed.mpr (Or.inr (Or.inl hmem)))
  have hpos : 0 < s.pending := by omega
  have hnone := h.not_completed hpos
  refine ⟨?_, h.start_in, h.closed, h.error_eq, h.drained, ?_, Or.inl hnone,
    fun _ hz => absurd hz (Nat.ne_of_gt hpos), h.blamed⟩
  · refine h.core.move rfl rfl ?_ h.core.calling_nodup h.core.calling_made ?_ ?_ ?_
    · show (s.todo ++ s.popped.erase elt ++ (s.spawned ++ [elt]) ++ s.made).Perm
        (s.todo ++ s.popped ++ s.spawned ++ s.made)
      rw [List.perm_iff_count]
      intro x
      have hcount := (List.perm_cons_erase hmem).count_eq x
      simp only [List.count_append, List.count_cons, List.count_nil] at hcount ⊢
      omega
    · show s.inFlight + 1 = (s.spawned ++ [elt]).length + s.calling.length + 0
      rw [List.length_append, List.length_singleton]
      omega
    · show s.pending = s.todo.length + (s.popped.erase elt).length + (s.spawned ++ [elt]).length
        + s.calling.length + 0
      rw [List.length_append, List.length_singleton]
      omega
    · intro _
      show 0 < (s.popped.erase elt).length + (s.spawned ++ [elt]).length + s.calling.length + 0
      rw [List.length_append, List.length_singleton]
      omega
  · intro htrue
    have hfalse : s.starting = true := htrue
    rw [hstarting] at hfalse
    cases hfalse

theorem inv_begin (h : Inv p s) {elt : α} (hstep : step p s (.begin elt) = some s') :
    Inv p s' := by
  obtain ⟨hmem, rfl⟩ := step_cases hstep
  have hlen := List.length_erase_of_mem hmem
  have hone := List.length_pos_of_mem hmem
  have hflight := h.core.inFlight_eq
  have hpending := h.core.pending_eq
  have hstarting := h.not_starting (mem_placed.mpr (Or.inr (Or.inr (Or.inl hmem))))
  have hpos : 0 < s.pending := by omega
  -- a node is asked for once, so it was not among the calls
  have hnew : elt ∉ s.made := by
    have hnodup := h.core.nodup
    unfold State.placed at hnodup
    have hdisjoint := List.disjoint_of_nodup_append hnodup
    exact fun hmade => hdisjoint (List.mem_append_right _ hmem) hmade
  refine ⟨?_, h.start_in, ?_, h.error_eq, h.drained, ?_, Or.inl (h.not_completed hpos),
    fun _ hz => absurd hz (Nat.ne_of_gt hpos), fun _ => ?_⟩
  · refine h.core.move rfl rfl ?_ ?_ ?_ ?_ ?_ ?_
    · show (s.todo ++ s.popped ++ s.spawned.erase elt ++ (s.made ++ [elt])).Perm
        (s.todo ++ s.popped ++ s.spawned ++ s.made)
      rw [List.perm_iff_count]
      intro x
      have hcount := (List.perm_cons_erase hmem).count_eq x
      simp only [List.count_append, List.count_cons, List.count_nil] at hcount ⊢
      omega
    · show (s.calling ++ [elt]).Nodup
      rw [← List.concat_eq_append, List.nodup_concat]
      exact ⟨fun hcalling => hnew (h.core.calling_made elt hcalling), h.core.calling_nodup⟩
    · intro n hn
      show n ∈ s.made ++ [elt]
      rcases List.mem_append.mp hn with hn | hn
      · exact List.mem_append_left _ (h.core.calling_made n hn)
      · exact List.mem_append_right _ hn
    · show s.inFlight = (s.spawned.erase elt).length + (s.calling ++ [elt]).length + 0
      rw [List.length_append, List.length_singleton]
      omega
    · show s.pending = s.todo.length + s.popped.length + (s.spawned.erase elt).length
        + (s.calling ++ [elt]).length + 0
      rw [List.length_append, List.length_singleton]
      omega
    · intro _
      show 0 < s.popped.length + (s.spawned.erase elt).length + (s.calling ++ [elt]).length + 0
      rw [List.length_append, List.length_singleton]
      omega
  · intro hnone n hn hnot
    have hout : n ∉ s.calling := fun hin => hnot (List.mem_append_left _ hin)
    rcases List.mem_append.mp hn with hn | hn
    · exact h.closed hnone n hn hout
    · exact absurd (List.mem_append_right _ hn) hnot
  · intro htrue
    have hfalse : s.starting = true := htrue
    rw [hstarting] at hfalse
    cases hfalse
  · show s.made ++ [elt] ≠ []
    exact List.append_ne_nil_of_right_ne_nil _ (List.cons_ne_nil _ _)

theorem inv_finish (h : Inv p s) {elt : α} (hstep : step p s (.finish elt) = some s') :
    Inv p s' := by
  obtain ⟨hmem, rfl⟩ := step_cases hstep
  have hmade := h.core.calling_made elt hmem
  have hplaced : elt ∈ s.placed := mem_placed.mpr (Or.inr (Or.inr (Or.inr hmade)))
  have hstarting := h.not_starting hplaced
  have hpos : 0 < s.pending := by
    have hpending := h.core.pending_eq
    have hone := List.length_pos_of_mem hmem
    omega
  obtain ⟨hposted, hinvoked⟩ := h.not_completed hpos
  have hent := enqueueAll_entered p.maxConcurrent (p.edges elt)
    { s with calling := s.calling.erase elt }
  have hreached := h.core.reached_of_placed hplaced
  refine onWorkDone_inv ?_ ?_ ?_ ?_ ?_ ?_ ?_ ?_
  · exact enqueueAll_core (h.core.answer hmem) (p.edges elt)
      fun n hn hout => hreached.edge hn hout
  · exact (h.start_in hstarting).trans hent.res_mono
  · intro hnone n hn hnot
    rw [hent.error_eq] at hnone
    rw [hent.made_eq] at hn
    rw [hent.calling_eq] at hnot
    by_cases heq : n = elt
    · subst heq
      exact fun m hm => hent.all_in hnone m (mem_inOrder.mpr hm)
    · have hout : n ∉ s.calling := fun hin => hnot ((List.mem_erase_of_ne heq).mpr hin)
      exact (h.closed hnone n hn hout).trans hent.res_mono
  · rw [hent.error_eq, hent.failures_eq]
    exact h.error_eq
  · exact hent.starting_eq.trans hstarting
  · exact hent.posted_eq.trans hposted
  · exact hent.invoked_eq.trans hinvoked
  · rw [hent.made_eq]
    exact fun _ => List.ne_nil_of_mem hmade

/-- An exception is kept if it is the first. -/
theorem failWith_eq (h : s.error = s.failures.head?) (ex : ε) :
    failWith ex { s with failures := s.failures ++ [ex] }
      = { s with error := (s.failures ++ [ex]).head?, failures := s.failures ++ [ex] } := by
  unfold failWith
  dsimp only
  cases hfailures : s.failures with
  | nil =>
      have hnone : s.error = none := by rw [h, hfailures]; rfl
      rw [hnone]
      rfl
  | cons first rest =>
      have hsome : s.error = some first := by rw [h, hfailures]; rfl
      rw [hsome]
      rfl

theorem inv_failed (h : Inv p s) {elt : α} {ex : ε}
    (hstep : step p s (.failed elt ex) = some s') : Inv p s' := by
  obtain ⟨hmem, rfl⟩ := step_cases hstep
  have hmade := h.core.calling_made elt hmem
  have hstarting := h.not_starting (mem_placed.mpr (Or.inr (Or.inr (Or.inr hmade))))
  have hpos : 0 < s.pending := by
    have hpending := h.core.pending_eq
    have hone := List.length_pos_of_mem hmem
    omega
  obtain ⟨hposted, hinvoked⟩ := h.not_completed hpos
  have herror : (s.failures ++ [ex]).head? ≠ none := by
    rw [List.head?_append]
    simp
  have hfail := failWith_eq (s := { s with calling := s.calling.erase elt }) h.error_eq ex
  rw [hfail]
  have hanswer := h.core.answer hmem
  refine onWorkDone_inv ?_ (h.start_in hstarting) ?_ rfl hstarting hposted hinvoked
    fun _ => List.ne_nil_of_mem hmade
  · exact ⟨hanswer.inFlight_eq, hanswer.pending_eq, hanswer.nodup, hanswer.calling_nodup,
      hanswer.calling_made, hanswer.placed_new, fun hnone => absurd hnone herror,
      hanswer.initial_subset, hanswer.reached, hanswer.busy⟩
  · exact fun hnone => absurd hnone herror

theorem inv_handle (h : Inv p s) {ex : Option ε} (hstep : step p s (.handle ex) = some s') :
    Inv p s' := by
  obtain ⟨hmem, rfl⟩ := step_cases hstep
  rcases h.completed with ⟨hnone, -⟩ | ⟨hzero, hstarting, ⟨hposted, hinvoked⟩ | ⟨hposted, -⟩⟩
  · rw [hnone] at hmem
    exact absurd hmem List.not_mem_nil
  · have heq : ex = s.error := by
      rw [hposted] at hmem
      exact List.mem_singleton.mp hmem
    have hleft : s.posted.erase ex = [] := by
      rw [hposted, heq, List.erase_cons_head]
    have hcalled : s.invoked ++ [ex] = [s.error] := by
      rw [hinvoked, heq, List.nil_append]
    refine ⟨?_, h.start_in, h.closed, h.error_eq, h.drained, ?_,
      Or.inr ⟨hzero, hstarting, Or.inr ⟨hleft, hcalled⟩⟩, fun _ _ => Or.inr (Or.inl ?_),
      h.blamed⟩
    · exact ⟨h.core.inFlight_eq, h.core.pending_eq, h.core.nodup, h.core.calling_nodup,
        h.core.calling_made, h.core.placed_new, h.core.placed_all, h.core.initial_subset,
        h.core.reached, h.core.busy⟩
    · intro htrue
      have hfalse : s.starting = true := htrue
      rw [hstarting] at hfalse
      cases hfalse
    · show s.invoked ++ [ex] ≠ []
      rw [hcalled]
      exact List.cons_ne_nil _ _
  · rw [hposted] at hmem
    exact absurd hmem List.not_mem_nil

/-- Every handler keeps the invariant. -/
theorem inv_step (h : Inv p s) {a : Handler α ε} (hstep : step p s a = some s') : Inv p s' := by
  cases a with
  | start => exact inv_start h hstep
  | respawn elt => exact inv_respawn h hstep
  | begin elt => exact inv_begin h hstep
  | finish elt => exact inv_finish h hstep
  | failed elt ex => exact inv_failed h hstep
  | handle ex => exact inv_handle h hstep

-- ============================================================================
-- Section 4: Termination
-- ============================================================================

/-- The handlers that nodes still need: three for one that was not inserted, is
    queued or popped, two for a posted worker, one for a call. -/
def waiting (p : Problem α) (s : State α ε) : Nat :=
  3 * (p.nodes \ s.res).card + 3 * s.todo.length + 3 * s.popped.length + 2 * s.spawned.length
    + s.calling.length

/-- The handlers of the beginning and the end that may still run. -/
def bracketing (s : State α ε) : Nat :=
  (if s.starting then 1 else 0) + (if s.posted = [] ∧ s.invoked = [] then 1 else 0)
    + s.posted.length

/-- The handlers that may still run. -/
def budget (p : Problem α) (s : State α ε) : Nat := bracketing s + waiting p s

omit [DecidableEq ε] in
theorem enqueue_waiting {elt : α} (helt : elt ∈ p.nodes) (maxConcurrent : Nat) (s : State α ε) :
    waiting p (enqueue maxConcurrent elt s) ≤ waiting p s := by
  have hcard : elt ∉ s.res →
      (p.nodes \ insert elt s.res).card + 1 = (p.nodes \ s.res).card := by
    intro hnew
    have hmem : elt ∈ p.nodes \ s.res := Finset.mem_sdiff.mpr ⟨helt, hnew⟩
    rw [Finset.sdiff_insert, Finset.card_erase_add_one hmem]
  rcases enqueue_cases maxConcurrent elt s with ⟨heq, -⟩ | ⟨-, hnew, heq⟩ | ⟨-, hnew, -, heq⟩
  · rw [heq]
  · have hless := hcard hnew
    rw [heq]
    simp only [waiting, List.length_append, List.length_singleton]
    omega
  · have hless := hcard hnew
    rw [heq]
    simp only [waiting, List.length_append, List.length_singleton]
    omega

omit [DecidableEq ε] in
theorem enqueueAll_waiting {elts : Finset α} (helts : elts ⊆ p.nodes) (maxConcurrent : Nat)
    (s : State α ε) : waiting p (enqueueAll maxConcurrent elts s) ≤ waiting p s := by
  have hgo : ∀ (l : List α) (s : State α ε), (∀ n ∈ l, n ∈ p.nodes) →
      waiting p (l.foldl (fun s elt => enqueue maxConcurrent elt s) s) ≤ waiting p s := by
    intro l
    induction l with
    | nil => exact fun s _ => Nat.le_refl _
    | cons elt l ih =>
        intro s hl
        exact Nat.le_trans (ih _ fun n hn => hl n (List.mem_cons_of_mem _ hn))
          (enqueue_waiting (hl elt List.mem_cons_self) maxConcurrent s)
  exact hgo _ s fun n hn => helts (mem_inOrder.mp hn)

omit [DecidableEq ε] in
/-- The end of a worker needs no more than there was: what it posts is the
    completion, once. -/
theorem onWorkDone_budget (h : Core p 1 s) (hposted : s.posted = []) (hinvoked : s.invoked = []) :
    budget p (onWorkDone s) ≤ budget p s := by
  rcases onWorkDone_cases h with ⟨next, todo, -, htodo, heq⟩ | ⟨-, ⟨-, heq⟩ | ⟨-, heq⟩⟩
  · rw [heq]
    simp only [budget, bracketing, waiting, htodo, List.length_append, List.length_cons,
      List.length_nil]
    omega
  · rw [heq]
    simp only [budget, bracketing, waiting, List.length_nil]
    omega
  · rw [heq]
    simp only [budget, bracketing, waiting, hposted, hinvoked, List.nil_append, List.cons_ne_nil,
      false_and, and_self, if_true, if_false, List.length_cons, List.length_nil]
    omega

/-- Every handler takes one from the budget. -/
theorem budget_step (h : Inv p s) {a : Handler α ε} (hstep : step p s a = some s') :
    budget p s' < budget p s := by
  have hanswer : ∀ n ∈ s.calling, ∀ t : State α ε, t.posted = s.posted → t.invoked = s.invoked →
      t.starting = s.starting → Core p 1 t →
      waiting p t ≤ waiting p { s with calling := s.calling.erase n } →
      budget p (onWorkDone t) < budget p s := by
    intro n hn t hposted hinvoked hstarting hcore hwaiting
    have hpos : 0 < s.pending := by
      have hpending := h.core.pending_eq
      have hone := List.length_pos_of_mem hn
      omega
    obtain ⟨hnone, hnone'⟩ := h.not_completed hpos
    refine Nat.lt_of_le_of_lt
      (onWorkDone_budget hcore (hposted.trans hnone) (hinvoked.trans hnone')) ?_
    have hlen := List.length_erase_of_mem hn
    have hone := List.length_pos_of_mem hn
    have hends : bracketing t = bracketing s := by
      unfold bracketing
      rw [hposted, hinvoked, hstarting]
    unfold waiting at hwaiting
    dsimp only at hwaiting
    unfold budget waiting
    rw [hends]
    omega
  cases a with
  | start =>
      obtain ⟨hstarting, rfl⟩ := step_cases hstep
      have hent := enqueueAll_entered p.maxConcurrent p.startElts { s with starting := false }
      have hwaiting := enqueueAll_waiting p.start_subset p.maxConcurrent
        { s with starting := false }
      have hsame : waiting p { s with starting := false } = waiting p s := rfl
      unfold budget bracketing
      rw [hent.starting_eq, hent.posted_eq, hent.invoked_eq, hstarting]
      simp only [if_true, Bool.false_eq_true, if_false]
      omega
  | respawn elt =>
      obtain ⟨hmem, rfl⟩ := step_cases hstep
      have hlen := List.length_erase_of_mem hmem
      have hone := List.length_pos_of_mem hmem
      have hends : bracketing (spawnWorker elt { s with popped := s.popped.erase elt })
          = bracketing s := rfl
      unfold budget
      rw [hends]
      simp only [waiting, spawnWorker, List.length_append, List.length_singleton]
      omega
  | begin elt =>
      obtain ⟨hmem, rfl⟩ := step_cases hstep
      have hlen := List.length_erase_of_mem hmem
      have hone := List.length_pos_of_mem hmem
      have hends : bracketing { s with
          spawned := s.spawned.erase elt
          calling := s.calling ++ [elt]
          made := s.made ++ [elt] } = bracketing s := rfl
      unfold budget
      rw [hends]
      simp only [waiting, List.length_append, List.length_singleton]
      omega
  | finish elt =>
      obtain ⟨hmem, rfl⟩ := step_cases hstep
      have hent := enqueueAll_entered p.maxConcurrent (p.edges elt)
        { s with calling := s.calling.erase elt }
      have hreached := h.core.reached_of_placed
        (mem_placed.mpr (Or.inr (Or.inr (Or.inr (h.core.calling_made elt hmem)))))
      exact hanswer elt hmem _ hent.posted_eq hent.invoked_eq hent.starting_eq
        (enqueueAll_core (h.core.answer hmem) (p.edges elt)
          fun n hn hout => hreached.edge hn hout)
        (enqueueAll_waiting (p.edges_subset elt hreached.mem_nodes) _ _)
  | failed elt ex =>
      obtain ⟨hmem, rfl⟩ := step_cases hstep
      have herror : (s.failures ++ [ex]).head? ≠ none := by
        rw [List.head?_append]
        simp
      have hcore := h.core.answer hmem
      have hfail := failWith_eq (s := { s with calling := s.calling.erase elt }) h.error_eq ex
      rw [hfail]
      refine hanswer elt hmem _ rfl rfl rfl ?_ (Nat.le_refl _)
      exact ⟨hcore.inFlight_eq, hcore.pending_eq, hcore.nodup, hcore.calling_nodup,
        hcore.calling_made, hcore.placed_new, fun hnone => absurd hnone herror,
        hcore.initial_subset, hcore.reached, hcore.busy⟩
  | handle ex =>
      obtain ⟨hmem, rfl⟩ := step_cases hstep
      have hlen := List.length_erase_of_mem hmem
      have hone := List.length_pos_of_mem hmem
      have hnot : ¬ (s.posted.erase ex = [] ∧ s.invoked ++ [ex] = []) :=
        fun hboth => List.append_ne_nil_of_right_ne_nil _ (List.cons_ne_nil _ _) hboth.2
      have hwaiting : waiting p
          { s with posted := s.posted.erase ex, invoked := s.invoked ++ [ex] } = waiting p s := rfl
      unfold budget bracketing
      rw [hwaiting, if_neg hnot]
      simp only []
      omega

-- ============================================================================
-- Section 5: Whole runs
-- ============================================================================

/-- A run keeps the invariant, and is paid for from the budget. -/
theorem run_spec (h : Inv p s) {events : List (Handler α ε)}
    (hrun : p.system.run events s = some s') :
    Inv p s' ∧ budget p s' + events.length ≤ budget p s := by
  induction events generalizing s with
  | nil =>
      cases hrun
      exact ⟨h, Nat.le_refl _⟩
  | cons a rest ih =>
      obtain ⟨t, ht, hrest⟩ := Option.bind_eq_some_iff.mp hrun
      obtain ⟨hinv, hbudget⟩ := ih (inv_step h ht) hrest
      have hless := budget_step h ht
      refine ⟨hinv, ?_⟩
      rw [List.length_cons]
      omega

omit [DecidableEq ε] in
theorem budget_init : budget p (p.init : State α ε) ≤ 3 * p.nodes.card + 2 := by
  have hcard : (p.nodes \ p.initial).card ≤ p.nodes.card :=
    Finset.card_le_card Finset.sdiff_subset
  unfold Problem.init
  dsimp only
  by_cases hempty : p.startElts = ∅
  · rw [if_pos hempty]
    simp [budget, bracketing, waiting, complete]
    omega
  · rw [if_neg hempty]
    simp [budget, bracketing, waiting]
    omega

/-- When nothing is left to execute, nothing waits anywhere. -/
theorem Terminal.idle (h : Inv p s) (hterminal : Terminal p s) :
    s.starting = false ∧ s.posted = [] ∧ s.popped = [] ∧ s.spawned = [] ∧ s.calling = [] ∧
      s.todo = [] ∧ s.pending = 0 := by
  have hstarting : s.starting = false := by
    cases hcase : s.starting with
    | false => rfl
    | true =>
        have hstep := hterminal .start
        simp [step, hcase] at hstep
  have hposted : s.posted = [] := by
    refine List.eq_nil_iff_forall_not_mem.mpr fun ex hmem => ?_
    have hstep := hterminal (.handle ex)
    simp [step, hmem] at hstep
  have hpopped : s.popped = [] := by
    refine List.eq_nil_iff_forall_not_mem.mpr fun n hmem => ?_
    have hstep := hterminal (.respawn n)
    simp [step, hmem] at hstep
  have hspawned : s.spawned = [] := by
    refine List.eq_nil_iff_forall_not_mem.mpr fun n hmem => ?_
    have hstep := hterminal (.begin n)
    simp [step, hmem] at hstep
  have hcalling : s.calling = [] := by
    refine List.eq_nil_iff_forall_not_mem.mpr fun n hmem => ?_
    have hstep := hterminal (.finish n)
    simp [step, hmem] at hstep
  -- a queue is only left to workers
  have htodo : s.todo = [] := by
    by_contra hne
    have hbusy := h.core.busy hne
    rw [hpopped, hspawned, hcalling] at hbusy
    exact absurd hbusy (Nat.lt_irrefl 0)
  have hpending := h.core.pending_eq
  rw [hpopped, hspawned, hcalling, htodo] at hpending
  exact ⟨hstarting, hposted, hpopped, hspawned, hcalling, htodo, hpending⟩

/-- Without a failure everything that was reached has been inserted. -/
theorem Terminal.mem_res (h : Inv p s) (hterminal : Terminal p s) (hfailures : s.failures = [])
    (n : α) : n ∈ s.res ↔ n ∈ p.initial ∨ p.Reached n := by
  obtain ⟨hstarting, -, hpopped, hspawned, hcalling, htodo, -⟩ := hterminal.idle h
  have hnone : s.error = none := by rw [h.error_eq, hfailures]; rfl
  constructor
  · exact h.core.reached n
  · rintro (hinitial | ⟨a, ha, hout, hpath⟩)
    · exact h.core.initial_subset hinitial
    · -- induction along the path: a node on it has been asked for its edges
      have hmem : n ∈ s.res ∧ n ∉ p.initial := by
        induction hpath with
        | refl => exact ⟨h.start_in hstarting ha, hout⟩
        | @tail x y _ hedge ih =>
            have hplaced := (h.core.placed_all hnone x ih.1).resolve_left ih.2
            rw [mem_placed, htodo, hpopped, hspawned] at hplaced
            have hmade : x ∈ s.made := by simpa using hplaced
            have hdone : x ∉ s.calling := by
              rw [hcalling]
              exact List.not_mem_nil
            exact ⟨h.closed hnone x hmade hdone hedge.1, hedge.2⟩
      exact hmem.1

/-- What the completion handler has been called with in the end. -/
theorem Terminal.invoked_cases (h : Inv p s) (hterminal : Terminal p s) :
    s.invoked = [s.error] ∨
      s.invoked = [] ∧ s.failures = [] ∧ p.startElts ≠ ∅ ∧ p.startElts ⊆ p.initial := by
  obtain ⟨hstarting, hposted, hpopped, hspawned, hcalling, htodo, hpending⟩ := hterminal.idle h
  rcases h.completed with ⟨-, hinvoked⟩ | ⟨-, -, ⟨hone, -⟩ | ⟨-, hinvoked⟩⟩
  · rcases h.signalled hstarting hpending with hne | hne | ⟨hsome, hsub⟩
    · exact absurd hposted hne
    · exact absurd hinvoked hne
    · refine Or.inr ⟨hinvoked, ?_, hsome, hsub⟩
      by_contra hfailed
      obtain ⟨n, hmade⟩ := List.exists_mem_of_ne_nil _ (h.blamed hfailed)
      -- what has been asked for was reached from a start node
      obtain ⟨a, ha, hout, -⟩ := h.core.reached_of_placed
        (mem_placed.mpr (Or.inr (Or.inr (Or.inr hmade))))
      exact hout (hsub ha)
  · rw [hposted] at hone
    cases hone
  · exact Or.inl hinvoked

theorem Terminal.outcome_eq (h : Inv p s) (hterminal : Terminal p s) :
    outcome s = match s.failures.head? with
      | some ex => .error ex
      | none => .ok s.res := by
  unfold outcome
  rcases hterminal.invoked_cases h with hinvoked | ⟨hinvoked, hfailures, -⟩
  · rw [hinvoked, h.error_eq]
    cases s.failures.head? with
    | none => rfl
    | some ex => rfl
  · rw [hinvoked, hfailures]
    rfl

/-- `computeClosure` comes to an end on every schedule, with the closure unless
    a call failed; it asks for a node's edges once, and completes when no call
    is left. -/
theorem computeClosure_correct (p : Problem α) {events : List (Handler α ε)} {s : State α ε}
    (hrun : p.system.run events p.init = some s) :
    events.length ≤ 3 * p.nodes.card + 2 ∧
    s.made.Nodup ∧
    (s.posted ≠ [] ∨ s.invoked ≠ [] →
      s.calling = [] ∧ s.spawned = [] ∧ s.popped = [] ∧ s.todo = []) ∧
    (Terminal p s →
      ((∃ res, outcome s = .ok res) ↔ s.failures = []) ∧
      (s.failures = [] →
        outcome s = .ok s.res ∧ ∀ n, n ∈ s.res ↔ n ∈ p.initial ∨ p.Reached n)) := by
  obtain ⟨hinv, hbudget⟩ := run_spec inv_init hrun
  refine ⟨?_, ?_, ?_, ?_⟩
  -- each handler lowers the budget
  · have hinit := budget_init (p := p) (ε := ε)
    omega
  · have hnodup := hinv.core.nodup
    unfold State.placed at hnodup
    exact hnodup.of_append_right
  -- nothing is pending by the time the result is signalled
  · intro hsignalled
    have hpending := hinv.core.pending_eq
    have hzero : s.pending = 0 := by
      rcases hinv.completed with ⟨hposted, hinvoked⟩ | ⟨hzero, -⟩
      · exact absurd hsignalled (by simp [hposted, hinvoked])
      · exact hzero
    refine ⟨?_, ?_, ?_, ?_⟩ <;>
      · apply List.length_eq_zero_iff.mp
        omega
  · intro hterminal
    have houtcome := hterminal.outcome_eq hinv
    constructor
    · cases hfailures : s.failures with
      | nil =>
          rw [hfailures] at houtcome
          exact ⟨fun _ => rfl, fun _ => ⟨s.res, houtcome⟩⟩
      | cons ex rest =>
          rw [hfailures] at houtcome
          constructor
          · rintro ⟨res, hres⟩
            rw [houtcome] at hres
            cases hres
          · exact fun hnil => absurd hnil (List.cons_ne_nil _ _)
    · intro hfailures
      rw [hfailures] at houtcome
      exact ⟨houtcome, hterminal.mem_res hinv hfailures⟩

/-- Two nodes on a cycle, one call at a time. -/
def ring : Problem Nat where
  nodes := {0, 1}
  edges n := {1 - n}
  edges_subset := by decide
  startElts := {0}
  start_subset := by decide
  initial := ∅
  maxConcurrent := 1
  concurrent_pos := by decide

theorem computeClosure_correct_ring :
    ∃ s : State Nat Unit, ring.system.run
        [.start, .begin 0, .finish 0, .respawn 1, .begin 1, .finish 1, .handle none] ring.init
          = some s ∧
      outcome s = .ok {1, 0} ∧ s.made.Nodup := by
  have hrun : ring.system.run
      [.start, .begin 0, .finish 0, .respawn 1, .begin 1, .finish 1, .handle none] ring.init
        = some (⟨{1, 0}, 0, 0, [], none, false, [], [], [], [], [none], [0, 1], []⟩ :
            State Nat Unit) := rfl
  exact ⟨_, hrun, rfl, (computeClosure_correct ring hrun).2.1⟩

-- ============================================================================
-- Section 6: Completion
-- ============================================================================

omit [DecidableEq ε] in
/-- Start nodes that are all in `res` already are passed over. -/
theorem enqueueAll_initial (hsub : p.startElts ⊆ p.initial) (h : s.res = p.initial) :
    enqueueAll p.maxConcurrent p.startElts s = s := by
  apply (enqueueAll_entered p.maxConcurrent p.startElts s).same
  intro n hn
  rw [h]
  exact hsub (mem_inOrder.mp hn)

/-- Where nothing is posted and no worker waits, nothing is left to execute. -/
theorem Terminal.of_empty (hstarting : s.starting = false) (hpopped : s.popped = [])
    (hspawned : s.spawned = []) (hcalling : s.calling = []) (hposted : s.posted = []) :
    Terminal p s := by
  intro a
  cases a with
  | start => simp [step, hstarting]
  | respawn elt => simp [step, hpopped]
  | begin elt => simp [step, hspawned]
  | finish elt => simp [step, hcalling]
  | failed elt ex => simp [step, hcalling]
  | handle ex => simp [step, hposted]

/-- The completion handler is called exactly once, unless there are start nodes
    and all of them are in `res` already: then nothing is inserted, and no
    worker is there to post the completion. -/
theorem completed_once_iff (p : Problem α) :
    (∀ (events : List (Handler α ε)) (s : State α ε), p.system.run events p.init = some s →
        Terminal p s → s.invoked.length = 1) ↔
      (p.startElts = ∅ ∨ ¬ p.startElts ⊆ p.initial) := by
  constructor
  · intro hall
    by_contra hnot
    rw [not_or, not_not] at hnot
    obtain ⟨hsome, hsub⟩ := hnot
    -- the first handler finds nothing to insert, and is the last one
    let s : State α ε := { (p.init : State α ε) with starting := false }
    have hinit : (p.init : State α ε).starting = true ∧ (p.init : State α ε).res = p.initial ∧
        (p.init : State α ε).posted = [] ∧ (p.init : State α ε).invoked = [] ∧
        (p.init : State α ε).placed = [] ∧ (p.init : State α ε).calling = [] := by
      unfold Problem.init
      dsimp only
      rw [if_neg hsome]
      exact ⟨rfl, rfl, rfl, rfl, rfl, rfl⟩
    obtain ⟨hstarting, hres, hposted, hinvoked, hplaced, hcalling⟩ := hinit
    simp only [State.placed, List.append_eq_nil_iff] at hplaced
    have hstep : step p (p.init : State α ε) .start = some s := by
      simp only [step]
      rw [if_pos hstarting]
      exact congrArg some (enqueueAll_initial (s := s) hsub hres)
    have hrun : p.system.run [.start] (p.init : State α ε) = some s :=
      Option.bind_eq_some_iff.mpr ⟨s, hstep, rfl⟩
    have hterminal : Terminal p s :=
      Terminal.of_empty rfl hplaced.1.1.2 hplaced.1.2 hcalling hposted
    have hone := hall [.start] s hrun hterminal
    have hzero : s.invoked = [] := hinvoked
    rw [hzero] at hone
    cases hone
  · intro hgood events s hrun hterminal
    obtain ⟨hinv, -⟩ := run_spec inv_init hrun
    rcases hterminal.invoked_cases hinv with hinvoked | ⟨-, -, hsome, hsub⟩
    · rw [hinvoked, List.length_singleton]
    · rcases hgood with hempty | hnot
      · exact absurd hempty hsome
      · exact absurd hsub hnot

/-- One node, which is in `res` already. -/
def present : Problem Nat where
  nodes := {0}
  edges _ := ∅
  edges_subset := by decide
  startElts := {0}
  start_subset := by decide
  initial := {0}
  maxConcurrent := 1024
  concurrent_pos := by decide

theorem completed_never :
    ∃ s : State Nat Unit, present.system.run [.start] present.init = some s ∧
      Terminal present s ∧ s.invoked = [] :=
  ⟨_, rfl, Terminal.of_empty rfl rfl rfl rfl rfl, rfl⟩

end Closure
end NixStore
