/-
  NixStore.Util.ThreadPoolRuns

  Whole runs of a `ThreadPool`.

  A run is paid for step by step: what a thread and the owner still have to do
  costs something, enqueueing an item earns what it takes to get through it,
  and a notification is paid for out of what was put aside for it.
-/

import NixStore.Util.ThreadPoolInv

namespace NixStore
namespace ThreadPool

open Replace

variable {ι κ ε : Type} {s s' : ThreadPool ι κ ε} {t : Nat} {a b : PoolPc ι κ ε}

-- ============================================================================
-- Section 1: The length of a run
-- ============================================================================

/-- The steps that a thread still takes, if it gets no other item. -/
def pcCost : PoolPc ι κ ε → Nat
  | .entering => 2
  | .waiting => 1
  | .woken => 2
  | .running _ _ => 3
  | .finished _ => 2
  | .returned => 0

/-- The steps behind `shutdown()`. -/
def exitCost : Option ε → Nat
  | some _ => 3
  | none => 0

/-- The steps that the owner still takes, if there are no workers to join. -/
def callerCost : PoolCaller ε → Nat
  | .idle => 10
  | .working _ => 6
  | .stopping exc => 2 + exitCost exc
  | .notifying workers exc => workers.length + 1 + exitCost exc
  | .joining workers exc => workers.length + exitCost exc
  | .ended => 3
  | .destroyed => 0

/-- What is put aside to wake everybody up. -/
def slack (s : ThreadPool ι κ ε) : Nat :=
  if s.quit then s.threads.countP PoolPc.isWaiting else s.threads.length

/-- A bound on the steps that are still taken if nothing is enqueued. -/
def cost (s : ThreadPool ι κ ε) : Nat :=
  (s.threads.map pcCost).sum + 2 * s.pending.length + s.workers.length + s.slack +
    callerCost s.caller

theorem sum_cost_wake (l : List (PoolPc ι κ ε)) :
    ((l.map PoolPc.wake).map pcCost).sum = (l.map pcCost).sum + l.countP PoolPc.isWaiting := by
  induction l with
  | nil => rfl
  | cons pc l ih =>
      rw [List.map_cons, List.map_cons, List.sum_cons, List.map_cons, List.sum_cons, ih,
        List.countP_cons]
      cases pc <;> simp [PoolPc.wake, pcCost, PoolPc.isWaiting] <;> omega

theorem countP_isWaiting_le_slack (s : ThreadPool ι κ ε) :
    s.threads.countP PoolPc.isWaiting ≤ s.slack := by
  unfold slack
  split
  · exact Nat.le_refl _
  · exact List.countP_le_length

/-- A thread goes on; if it waits from now on, the pool does not quit. -/
theorem cost_setPc (ha : s.threads[t]? = some a)
    (hwaiting : b.isWaiting = true → s.quit = false) :
    (s.setPc t b).cost + pcCost a ≤ s.cost + pcCost b := by
  have hsum := sum_map_set ha pcCost b
  have hslack : (s.setPc t b).slack ≤ s.slack := by
    have hcount := countP_set ha PoolPc.isWaiting b
    unfold slack
    cases hquit : s.quit with
    | false =>
        rw [show (s.setPc t b).quit = false from hquit]
        exact Nat.le_of_eq List.length_set
    | true =>
        have hb : ¬ b.isWaiting = true := fun hb => by
          have hrunning := hwaiting hb
          rw [hquit] at hrunning
          cases hrunning
        rw [show (s.setPc t b).quit = true from hquit]
        rw [if_neg hb] at hcount
        show (s.threads.set t b).countP PoolPc.isWaiting ≤ s.threads.countP PoolPc.isWaiting
        omega
  show ((s.threads.set t b).map pcCost).sum + 2 * s.pending.length + s.workers.length +
      (s.setPc t b).slack + callerCost s.caller + pcCost a ≤
    (s.threads.map pcCost).sum + 2 * s.pending.length + s.workers.length + s.slack +
      callerCost s.caller + pcCost b
  omega

/-- Everybody is woken up when the pool quits, out of what was put aside. -/
theorem cost_notifyAll (hquit : s'.quit = true) (hthreads : s'.threads = s.threads.map PoolPc.wake)
    (hpending : s'.pending = s.pending) (hworkers : s'.workers = s.workers)
    (hcaller : s'.caller = s.caller) : s'.cost ≤ s.cost := by
  have hsum := sum_cost_wake s.threads
  have hwaiting := countP_isWaiting_le_slack s
  have hslack : s'.slack = 0 := by
    unfold slack
    rw [hquit, hthreads]
    exact countP_isWaiting_wake _
  unfold cost
  rw [hslack, hthreads, hpending, hworkers, hcaller]
  omega

theorem cost_record {exc : Option ε} (ha : s.threads[t]? = some (.finished exc)) :
    (s.record t exc).cost ≤ s.cost := by
  have hset : (s.setPc t .woken).cost ≤ s.cost := by
    have hcost := cost_setPc ha (b := .woken) fun hb => (by cases hb)
    exact Nat.le_of_add_le_add_right hcost
  cases exc with
  | none => exact hset
  | some e =>
      cases hexc : s.exception with
      | some e' =>
          rw [record_of_later hexc]
          exact hset
      | none =>
          rw [record_of_first hexc]
          exact Nat.le_trans (cost_notifyAll (s := s.setPc t .woken) rfl rfl rfl rfl rfl) hset

/-- A thread that looks for an item takes a step of its own. -/
theorem cost_await [Inhabited κ] (hlooks : Looks s t) : (s.await t).cost + 1 ≤ s.cost := by
  obtain ⟨a, ha, hcost⟩ : ∃ a, s.threads[t]? = some a ∧ pcCost a = 2 := by
    rcases hlooks with ha | ha <;> exact ⟨_, ha, rfl⟩
  rcases await_cases t s with ⟨-, heq⟩ | ⟨hquit, w, pending, hpending, heq⟩ |
    ⟨-, -, -, -, heq⟩ | ⟨hquit, -, -, heq⟩
  · have hset := cost_setPc ha (b := .returned) fun hb => (by cases hb)
    rw [heq]
    rw [hcost, show pcCost (.returned : PoolPc ι κ ε) = 0 from rfl] at hset
    omega
  · have hset := cost_setPc ha (b := .running w default) fun hb => (by cases hb)
    have hlength : s.pending.length = pending.length + 1 := by rw [hpending, List.length_cons]
    have hslack : (s.await t).slack = (s.setPc t (.running w default)).slack := by rw [heq]; rfl
    rw [heq] at hslack ⊢
    rw [hcost, show pcCost (.running w default : PoolPc ι κ ε) = 3 from rfl] at hset
    unfold cost at hset ⊢
    rw [hslack]
    simp only [setPc] at hset ⊢
    omega
  · have hset := cost_setPc ha (b := .returned) fun hb => (by cases hb)
    have hnotify : (s.await t).cost ≤ (s.setPc t .returned).cost := by
      rw [heq]
      exact cost_notifyAll (s := s.setPc t .returned) rfl rfl rfl rfl rfl
    rw [hcost, show pcCost (.returned : PoolPc ι κ ε) = 0 from rfl] at hset
    omega
  · have hset := cost_setPc ha (b := .waiting) fun _ => hquit
    rw [heq]
    rw [hcost, show pcCost (.waiting : PoolPc ι κ ε) = 1 from rfl] at hset
    omega

/-- What is taken from the owner is paid for by the threads, and the other way
    round. -/
theorem cost_enter (s : ThreadPool ι κ ε) : s.enter.cost ≤ s.cost + 3 := by
  have hslack : s.enter.slack ≤ s.slack + 1 := by
    unfold slack enter
    split
    · rw [List.countP_append]
      exact Nat.add_le_add_left (Nat.zero_le 1) _
    · rw [List.length_append]
      exact Nat.le_refl _
  unfold cost
  show ((s.threads ++ [PoolPc.entering]).map pcCost).sum + 2 * s.pending.length +
    s.workers.length + s.enter.slack + callerCost s.caller ≤ _
  rw [List.map_append, List.sum_append_nat]
  simp only [List.map_cons, List.map_nil, List.sum_cons, List.sum_nil, pcCost]
  omega

theorem cost_push (s : ThreadPool ι κ ε) (w : ι) : (s.push w).cost ≤ s.cost + 6 := by
  have hpushed : ({ s with pending := s.pending ++ [w], enqueued := s.enqueued ++ [w] } :
      ThreadPool ι κ ε).cost = s.cost + 2 := by
    unfold cost slack
    simp only [List.length_append, List.length_singleton]
    omega
  unfold push
  dsimp only
  split
  · have henter := cost_enter { s with pending := s.pending ++ [w], enqueued := s.enqueued ++ [w] }
    rw [hpushed] at henter
    unfold cost slack enter at *
    simp only [List.length_append, List.length_singleton] at *
    omega
  · omega

/-- A notification makes a thread look once more. -/
theorem cost_notifyOne {woken : Option Nat} (h : notifyOne woken s = some s') :
    s'.cost ≤ s.cost + 1 ∧ s'.enqueued = s.enqueued := by
  rcases notifyOne_cases h with ⟨t, ha, rfl⟩ | ⟨-, rfl⟩
  · have hset := cost_setPc ha (b := .woken) fun hb => (by cases hb)
    simp only [pcCost] at hset
    exact ⟨by omega, rfl⟩
  · exact ⟨Nat.le_succ _, rfl⟩

theorem enqueued_push (s : ThreadPool ι κ ε) (w : ι) :
    (s.push w).enqueued = s.enqueued ++ [w] := by
  unfold push
  dsimp only
  split <;> rfl

theorem enqueued_record (t : Nat) (exc : Option ε) (s : ThreadPool ι κ ε) :
    (s.record t exc).enqueued = s.enqueued := by
  unfold record
  dsimp only
  split <;> rfl

theorem enqueued_await [Inhabited κ] (t : Nat) (s : ThreadPool ι κ ε) :
    (s.await t).enqueued = s.enqueued := by
  rcases await_cases t s with ⟨-, heq⟩ | ⟨-, w, pending, -, heq⟩ | ⟨-, -, -, -, heq⟩ |
    ⟨-, -, -, heq⟩ <;> rw [heq] <;> rfl

/-- The owner goes on. -/
theorem cost_caller (s : ThreadPool ι κ ε) (caller : PoolCaller ε)
    (result : Option (Except ε Unit)) :
    ({ s with caller := caller, result := result } : ThreadPool ι κ ε).cost +
      callerCost s.caller = s.cost + callerCost caller := by
  unfold cost slack
  dsimp only
  omega

theorem cost_stopped (exc : Option ε) (s : ThreadPool ι κ ε) :
    (s.stopped exc).cost + callerCost s.caller = s.cost + exitCost exc := by
  cases exc with
  | some e => exact cost_caller s .ended _
  | none => exact cost_caller s .destroyed s.result

theorem enqueued_stopped (exc : Option ε) (s : ThreadPool ι κ ε) :
    (s.stopped exc).enqueued = s.enqueued := by
  cases exc <;> rfl

/-- The workers that are taken out of the state are still to be joined. -/
theorem cost_quit (s : ThreadPool ι κ ε) :
    ({ s with quit := true, workers := [] } : ThreadPool ι κ ε).cost + s.workers.length ≤
      s.cost := by
  have hslack : ({ s with quit := true, workers := [] } : ThreadPool ι κ ε).slack ≤ s.slack :=
    countP_isWaiting_le_slack s
  unfold cost
  dsimp only [List.length_nil]
  omega

/-- A step is paid for, up to what is enqueued and who wakes up by himself. -/
theorem cost_step [Inhabited κ] (h : Inv s) {x : PoolAction ι κ ε} (hstep : step s x = some s') :
    s'.cost + 7 * s.enqueued.length + x.paid.toNat ≤
      s.cost + 7 * s'.enqueued.length + x.isWake.toNat := by
  have hcases := step_cases hstep
  cases x with
  -- only an item that is pushed raises the cost, and by what is paid for it
  | enqueue w woken =>
      rcases hcases with ⟨-, rfl⟩ | ⟨-, hnotify⟩
      · exact Nat.le_refl _
      · obtain ⟨hnotified, henqueued⟩ := cost_notifyOne hnotify
        have hpushed := cost_push s w
        rw [henqueued, enqueued_push, List.length_append, List.length_singleton]
        simp only [PoolAction.paid, PoolAction.isWake, Bool.toNat_false]
        omega
  | process =>
      obtain ⟨hidle, rfl⟩ := hcases
      have henter := cost_enter s
      have hcost : _ + callerCost s.caller = s.enter.cost + 6 :=
        cost_caller { s.enter with draining := true } (.working s.threads.length) s.result
      rw [hidle] at hcost
      simp only [enter, callerCost, PoolAction.paid, PoolAction.isWake, Bool.toNat_false,
        Bool.toNat_true] at *
      omega
  | lock t =>
      rcases hcases with ⟨hlooks, rfl⟩ | ⟨exc, hpc, rfl⟩
      · have hawaited := cost_await hlooks
        rw [enqueued_await]
        simp only [PoolAction.paid, PoolAction.isWake, Bool.toNat_false, Bool.toNat_true]
        omega
      · have hrecorded := cost_record hpc
        have hawaited := cost_await (looks_record hpc)
        rw [enqueued_await, enqueued_record]
        simp only [PoolAction.paid, PoolAction.isWake, Bool.toNat_false, Bool.toNat_true]
        omega
  -- what happens inside of an item is free
  | work t point =>
      obtain ⟨w, point', hpc, rfl⟩ := hcases
      have hset := cost_setPc hpc (b := .running w point) fun hb => (by cases hb)
      simp only [pcCost, PoolAction.paid, PoolAction.isWake, Bool.toNat_false, setPc] at *
      omega
  | finish t =>
      obtain ⟨w, point, hpc, rfl⟩ := hcases
      have hset := cost_setPc hpc (b := .finished none) fun hb => (by cases hb)
      simp only [pcCost, PoolAction.paid, PoolAction.isWake, Bool.toNat_false, Bool.toNat_true,
        setPc, cost, slack] at *
      omega
  | throw t e =>
      obtain ⟨w, point, hpc, rfl⟩ := hcases
      have hset := cost_setPc hpc (b := .finished (some e)) fun hb => (by cases hb)
      simp only [pcCost, PoolAction.paid, PoolAction.isWake, Bool.toNat_false, Bool.toNat_true,
        setPc, cost, slack] at *
      omega
  | wake t =>
      obtain ⟨hpc, rfl⟩ := hcases
      have hset := cost_setPc hpc (b := .woken) fun hb => (by cases hb)
      simp only [pcCost, PoolAction.paid, PoolAction.isWake, Bool.toNat_false, Bool.toNat_true,
        setPc] at *
      omega
  | check =>
      obtain ⟨t, hcaller, -, -, ⟨e, -, rfl⟩ | ⟨-, rfl⟩⟩ := hcases
      · have hcost := cost_caller s (.stopping (some e)) s.result
        simp only [hcaller, callerCost, exitCost, PoolAction.paid, PoolAction.isWake,
          Bool.toNat_false, Bool.toNat_true] at *
        omega
      · have hcost := cost_caller s .ended (some (.ok ()))
        simp only [hcaller, callerCost, PoolAction.paid, PoolAction.isWake, Bool.toNat_false,
          Bool.toNat_true] at *
        omega
  | stop =>
      obtain ⟨exc, hcaller, hcases⟩ := hcases
      have hquit := cost_quit s
      rcases hcases with ⟨hnone, rfl⟩ | ⟨-, rfl⟩
      · have hcost := cost_stopped exc { s with quit := true, workers := [] }
        rw [enqueued_stopped]
        simp only [hcaller, callerCost, PoolAction.paid, PoolAction.isWake, Bool.toNat_false,
          Bool.toNat_true] at *
        omega
      · have hcost := cost_caller { s with quit := true, workers := [] } (.notifying s.workers exc)
          s.result
        simp only [hcaller, callerCost, PoolAction.paid, PoolAction.isWake, Bool.toNat_false,
          Bool.toNat_true] at *
        omega
  -- quitting by now, so what a woken thread does next is paid for
  | notify =>
      obtain ⟨workers, exc, hcaller, rfl⟩ := hcases
      obtain ⟨hquit, -, -⟩ := h.owner.halted (by rw [hcaller]; rfl)
      have hnotified : s.notifyAll.cost ≤ s.cost := cost_notifyAll hquit rfl rfl rfl rfl
      have hcost := cost_caller s.notifyAll (.joining workers exc) s.result
      simp only [hcaller, callerCost, PoolAction.paid, PoolAction.isWake, Bool.toNat_false,
        Bool.toNat_true, notifyAll] at *
      omega
  | join =>
      obtain ⟨t, workers, exc, hcaller, -, ⟨rfl, rfl⟩ | ⟨-, rfl⟩⟩ := hcases
      · have hcost := cost_stopped exc s
        rw [enqueued_stopped]
        simp only [hcaller, callerCost, PoolAction.paid, PoolAction.isWake, Bool.toNat_false,
          Bool.toNat_true, List.length_singleton] at *
        omega
      · have hcost := cost_caller s (.joining workers exc) s.result
        simp only [hcaller, callerCost, PoolAction.paid, PoolAction.isWake, Bool.toNat_false,
          Bool.toNat_true, List.length_cons] at *
        omega
  | destroy =>
      obtain ⟨hbefore, rfl⟩ := hcases
      have hcost := cost_caller s (.stopping none) s.result
      rcases hbefore with hidle | hover
      · simp only [hidle, callerCost, exitCost, PoolAction.paid, PoolAction.isWake,
          Bool.toNat_false, Bool.toNat_true] at *
        omega
      · simp only [hover, callerCost, exitCost, PoolAction.paid, PoolAction.isWake,
          Bool.toNat_false, Bool.toNat_true] at *
        omega

theorem sum_map_toNat {α : Type} (p : α → Bool) (l : List α) :
    (l.map fun x => (p x).toNat).sum = l.countP p := by
  induction l with
  | nil => rfl
  | cons x l ih =>
      rw [List.map_cons, List.sum_cons, ih, List.countP_cons]
      cases p x <;> simp only [Bool.toNat_false, Bool.toNat_true, if_true, Bool.false_eq_true,
        if_false] <;> omega

-- ============================================================================
-- Section 2: What the steps do to the items
-- ============================================================================

/-- The items of all threads but one stay where they are. -/
theorem jobs_set (ha : s.threads[t]? = some a) :
    ∃ rest, s.jobs.Perm (a.job.toList ++ rest) ∧
      ∀ b, (s.setPc t b).jobs.Perm (b.job.toList ++ rest) := by
  have hcons : ∀ (pc : PoolPc ι κ ε) l,
      (pc :: l).filterMap PoolPc.job = pc.job.toList ++ l.filterMap PoolPc.job := by
    intro pc l
    rw [List.filterMap_cons]
    cases pc.job <;> rfl
  obtain ⟨rest, hold, hnew⟩ := set_perm ha
  refine ⟨rest.filterMap PoolPc.job, ?_, fun b => ?_⟩
  · rw [← hcons]
    exact hold.filterMap _
  · rw [← hcons]
    exact (hnew b).filterMap _

theorem jobs_setPc (ha : s.threads[t]? = some a) (hjob : b.job = a.job) :
    (s.setPc t b).jobs.Perm s.jobs := by
  obtain ⟨rest, hold, hnew⟩ := jobs_set ha
  have hset := hnew b
  rw [hjob] at hset
  exact hset.trans hold.symm

theorem jobs_notifyAll (s : ThreadPool ι κ ε) : s.notifyAll.jobs = s.jobs := by
  show (s.threads.map PoolPc.wake).filterMap PoolPc.job = s.threads.filterMap PoolPc.job
  rw [List.filterMap_map]
  refine List.filterMap_congr fun pc _ => ?_
  cases pc <;> rfl

theorem jobs_enter (s : ThreadPool ι κ ε) : s.enter.jobs = s.jobs := by
  show (s.threads ++ [PoolPc.entering]).filterMap PoolPc.job = s.threads.filterMap PoolPc.job
  rw [List.filterMap_append]
  exact List.append_nil _

theorem jobs_push (s : ThreadPool ι κ ε) (w : ι) : (s.push w).jobs = s.jobs := by
  unfold push
  dsimp only
  split
  · exact jobs_enter s
  · rfl

theorem pending_push (s : ThreadPool ι κ ε) (w : ι) :
    (s.push w).pending = s.pending ++ [w] := by
  unfold push
  dsimp only
  split <;> rfl

theorem jobs_record {exc : Option ε} (ha : s.threads[t]? = some (.finished exc)) :
    (s.record t exc).jobs.Perm s.jobs := by
  have hset : (s.setPc t .woken).jobs.Perm s.jobs := jobs_setPc ha rfl
  cases exc with
  | none => exact hset
  | some e =>
      cases hexc : s.exception with
      | some e' =>
          rw [record_of_later hexc]
          exact hset
      | none =>
          rw [record_of_first hexc]
          exact .trans (.of_eq (jobs_notifyAll (s.setPc t .woken))) hset

theorem pending_record (t : Nat) (exc : Option ε) (s : ThreadPool ι κ ε) :
    (s.record t exc).pending = s.pending := by
  unfold record
  dsimp only
  split <;> rfl

variable [Inhabited κ]

theorem items_congr (hpending : s'.pending = s.pending) (hjobs : s'.jobs.Perm s.jobs) :
    s'.items.Perm s.items := by
  unfold items
  rw [hpending]
  exact hjobs.append_left _

/-- An item that a thread takes goes on where it starts. -/
theorem items_await (hlooks : Looks s t) : (s.await t).items.Perm s.items := by
  obtain ⟨a, ha, hjob⟩ : ∃ a, s.threads[t]? = some a ∧ a.job = none := by
    rcases hlooks with ha | ha <;> exact ⟨_, ha, rfl⟩
  rcases await_cases t s with ⟨-, heq⟩ | ⟨-, w, pending, hpending, heq⟩ | ⟨-, -, -, -, heq⟩ |
    ⟨-, -, -, heq⟩
  · rw [heq]
    exact items_congr rfl (jobs_setPc ha hjob.symm)
  · obtain ⟨rest, hold, hnew⟩ := jobs_set ha
    have hset : (s.await t).jobs.Perm ((w, default) :: rest) := by
      rw [heq]
      exact hnew (.running w default)
    have hrest : s.jobs.Perm rest := by
      rw [hjob] at hold
      exact hold
    have htaken : (s.await t).pending = pending := by rw [heq]
    unfold items
    rw [htaken, hpending, List.map_cons, List.cons_append]
    refine (hset.append_left _).trans (List.perm_middle.trans ?_)
    exact (hrest.symm.append_left _).cons _
  · rw [heq]
    refine items_congr rfl ?_
    exact .trans (.of_eq (jobs_notifyAll (s.setPc t .returned))) (jobs_setPc ha hjob.symm)
  · rw [heq]
    exact items_congr rfl (jobs_setPc ha hjob.symm)

/-- What each step does to the items that are not over. -/
theorem items_step {x : PoolAction ι κ ε} (hstep : step s x = some s') :
    match x with
    | .enqueue w _ => s.quit = false → s'.items.Perm ((w, default) :: s.items)
    | .work t point => ∃ w point' rest, s.threads[t]? = some (.running w point') ∧
        s.items.Perm ((w, point') :: rest) ∧ s'.items.Perm ((w, point) :: rest)
    | .finish t => ∃ w point, s.threads[t]? = some (.running w point) ∧
        s.items.Perm ((w, point) :: s'.items)
    | .throw t _ => ∃ w point, s.threads[t]? = some (.running w point) ∧
        s.items.Perm ((w, point) :: s'.items)
    | _ => s'.items.Perm s.items := by
  have hcases := step_cases hstep
  cases x with
  | enqueue w woken =>
      intro hrunning
      rcases hcases with ⟨hquit, -⟩ | ⟨-, hnotify⟩
      · rw [hrunning] at hquit
        cases hquit
      · have hpushed : (s.push w).items.Perm ((w, default) :: s.items) := by
          unfold items
          rw [pending_push, jobs_push, List.map_append, List.append_assoc]
          exact List.perm_middle
        refine .trans ?_ hpushed
        rcases notifyOne_cases hnotify with ⟨t, ha, rfl⟩ | ⟨-, rfl⟩
        · exact items_congr rfl (jobs_setPc ha rfl)
        · exact .refl _
  | process =>
      obtain ⟨-, rfl⟩ := hcases
      exact items_congr rfl (.of_eq (jobs_enter s))
  -- a thread that takes an item moves it from the queue to the jobs
  | lock t =>
      rcases hcases with ⟨hlooks, rfl⟩ | ⟨exc, hpc, rfl⟩
      · exact items_await hlooks
      · refine (items_await (looks_record hpc)).trans ?_
        exact items_congr (pending_record t exc s) (jobs_record hpc)
  | work t point =>
      obtain ⟨w, point', hpc, rfl⟩ := hcases
      obtain ⟨rest, hold, hnew⟩ := jobs_set hpc
      refine ⟨w, point', s.pending.map (fun w => (w, default)) ++ rest, hpc, ?_, ?_⟩
      · exact (hold.append_left _).trans List.perm_middle
      · exact ((hnew (.running w point)).append_left _).trans List.perm_middle
  | finish t =>
      obtain ⟨w, point, hpc, rfl⟩ := hcases
      obtain ⟨rest, hold, hnew⟩ := jobs_set hpc
      refine ⟨w, point, hpc, (hold.append_left _).trans (List.perm_middle.trans ?_)⟩
      exact ((hnew (.finished none)).symm.append_left _).cons _
  | throw t e =>
      obtain ⟨w, point, hpc, rfl⟩ := hcases
      obtain ⟨rest, hold, hnew⟩ := jobs_set hpc
      refine ⟨w, point, hpc, (hold.append_left _).trans (List.perm_middle.trans ?_)⟩
      exact ((hnew (.finished (some e))).symm.append_left _).cons _
  -- the rest touches neither the queue nor a running item
  | wake t =>
      obtain ⟨hpc, rfl⟩ := hcases
      exact items_congr rfl (jobs_setPc hpc rfl)
  | check =>
      obtain ⟨t, -, -, -, ⟨e, -, rfl⟩ | ⟨-, rfl⟩⟩ := hcases <;> exact .refl _
  | stop =>
      obtain ⟨exc, -, ⟨-, rfl⟩ | ⟨-, rfl⟩⟩ := hcases
      · cases exc <;> exact .refl _
      · exact .refl _
  | notify =>
      obtain ⟨workers, exc, -, rfl⟩ := hcases
      exact items_congr rfl (.of_eq (jobs_notifyAll s))
  | join =>
      obtain ⟨t, workers, exc, -, -, ⟨-, rfl⟩ | ⟨-, rfl⟩⟩ := hcases
      · cases exc <;> exact .refl _
      · exact .refl _
  | destroy =>
      obtain ⟨-, rfl⟩ := hcases
      exact .refl _

/-- Two states between which `process()` and the destructor have not been called
    and nothing has been thrown. -/
structure Kept (s s' : ThreadPool ι κ ε) : Prop where
  draining : s'.draining = s.draining
  destroying : s'.caller.destroying = s.caller.destroying
  idle : s'.caller = .idle ↔ s.caller = .idle
  threw : s'.threw = s.threw

omit [Inhabited κ] in
theorem Kept.trans {u : ThreadPool ι κ ε} (h : Kept s s') (h' : Kept s' u) : Kept s u :=
  ⟨h'.draining.trans h.draining, h'.destroying.trans h.destroying, h'.idle.trans h.idle,
    h'.threw.trans h.threw⟩

omit [Inhabited κ] in
theorem kept_notifyOne {woken : Option Nat} (h : notifyOne woken s = some s') : Kept s s' := by
  rcases notifyOne_cases h with ⟨t, -, rfl⟩ | ⟨-, rfl⟩ <;> exact ⟨rfl, rfl, .rfl, rfl⟩

omit [Inhabited κ] in
theorem kept_push (s : ThreadPool ι κ ε) (w : ι) : Kept s (s.push w) := by
  unfold push
  dsimp only
  split <;> exact ⟨rfl, rfl, .rfl, rfl⟩

omit [Inhabited κ] in
theorem kept_record (t : Nat) (exc : Option ε) (s : ThreadPool ι κ ε) :
    Kept s (s.record t exc) := by
  unfold record
  dsimp only
  split <;> exact ⟨rfl, rfl, .rfl, rfl⟩

theorem kept_await (t : Nat) (s : ThreadPool ι κ ε) : Kept s (s.await t) := by
  rcases await_cases t s with ⟨-, heq⟩ | ⟨-, w, pending, -, heq⟩ | ⟨-, -, -, -, heq⟩ |
    ⟨-, -, -, heq⟩ <;> rw [heq] <;> exact ⟨rfl, rfl, .rfl, rfl⟩

omit [Inhabited κ] in
theorem kept_stopped {exc : Option ε} (hcaller : s.caller.destroying = exc.isNone)
    (hidle : s.caller ≠ .idle) : Kept s (s.stopped exc) := by
  cases exc with
  | some e => exact ⟨rfl, hcaller.symm, ⟨fun h => (by cases h), fun h => absurd h hidle⟩, rfl⟩
  | none => exact ⟨rfl, hcaller.symm, ⟨fun h => (by cases h), fun h => absurd h hidle⟩, rfl⟩

/-- The steps that are calls of the owner, or that throw. -/
def PoolAction.loud : PoolAction ι κ ε → Bool
  | .process => true
  | .throw _ _ => true
  | .destroy => true
  | _ => false

/-- All other steps are quiet. -/
theorem kept_step {x : PoolAction ι κ ε} (hx : x.loud = false) (hstep : step s x = some s') :
    Kept s s' := by
  have hcases := step_cases hstep
  cases x with
  | enqueue w woken =>
      rcases hcases with ⟨-, rfl⟩ | ⟨-, hnotify⟩
      · exact ⟨rfl, rfl, .rfl, rfl⟩
      · exact (kept_push s w).trans (kept_notifyOne hnotify)
  | work t point =>
      obtain ⟨w, point', -, rfl⟩ := hcases
      exact ⟨rfl, rfl, .rfl, rfl⟩
  | finish t =>
      obtain ⟨w, point, -, rfl⟩ := hcases
      exact ⟨rfl, rfl, .rfl, rfl⟩
  | lock t =>
      rcases hcases with ⟨-, rfl⟩ | ⟨exc, -, rfl⟩
      · exact kept_await t s
      · exact (kept_record t exc s).trans (kept_await t _)
  | wake t =>
      obtain ⟨-, rfl⟩ := hcases
      exact ⟨rfl, rfl, .rfl, rfl⟩
  -- the owner goes from place to place, and none of them is `idle`
  | check =>
      obtain ⟨t, hcaller, -, -, hcases⟩ := hcases
      have hidle : s.caller ≠ .idle := by
        rw [hcaller]
        exact fun h => (by cases h)
      rcases hcases with ⟨e, -, rfl⟩ | ⟨-, rfl⟩
      · refine ⟨rfl, ?_, ⟨fun h => (by cases h), fun h => absurd h hidle⟩, rfl⟩
        rw [hcaller]
        rfl
      · refine ⟨rfl, ?_, ⟨fun h => (by cases h), fun h => absurd h hidle⟩, rfl⟩
        rw [hcaller]
        rfl
  | stop =>
      obtain ⟨exc, hcaller, hcases⟩ := hcases
      have hidle : s.caller ≠ .idle := by
        rw [hcaller]
        exact fun h => (by cases h)
      have hdestroying : s.caller.destroying = exc.isNone := by
        rw [hcaller]
        cases exc <;> rfl
      rcases hcases with ⟨-, rfl⟩ | ⟨-, rfl⟩
      · have hkept : Kept s { s with quit := true, workers := [] } := ⟨rfl, rfl, .rfl, rfl⟩
        exact hkept.trans (kept_stopped hdestroying hidle)
      · refine ⟨rfl, ?_, ⟨fun h => (by cases h), fun h => absurd h hidle⟩, rfl⟩
        rw [hdestroying]
        cases exc <;> rfl
  | notify =>
      obtain ⟨workers, exc, hcaller, rfl⟩ := hcases
      refine ⟨rfl, ?_, ⟨fun h => (by cases h), fun h => ?_⟩, rfl⟩
      · rw [hcaller]
        cases exc <;> rfl
      · rw [hcaller] at h
        cases h
  | join =>
      obtain ⟨t, workers, exc, hcaller, -, hcases⟩ := hcases
      have hidle : s.caller ≠ .idle := by
        rw [hcaller]
        exact fun h => (by cases h)
      have hdestroying : s.caller.destroying = exc.isNone := by
        rw [hcaller]
        cases exc <;> rfl
      rcases hcases with ⟨-, rfl⟩ | ⟨-, rfl⟩
      · exact kept_stopped hdestroying hidle
      · refine ⟨rfl, ?_, ⟨fun h => (by cases h), fun h => absurd h hidle⟩, rfl⟩
        rw [hdestroying]
        cases exc <;> rfl
  -- the loud ones
  | process => cases hx
  | throw t e => cases hx
  | destroy => cases hx

omit [Inhabited κ] in
/-- Somebody can be notified, if anybody waits. -/
theorem exists_notifyOne (s : ThreadPool ι κ ε) : ∃ woken s', notifyOne woken s = some s' := by
  cases hany : s.threads.any PoolPc.isWaiting with
  | false => exact ⟨none, s, if_neg (by rw [hany]; exact Bool.false_ne_true)⟩
  | true =>
      obtain ⟨pc, hpc, hwaiting⟩ := List.any_eq_true.mp hany
      obtain ⟨t, ht⟩ := List.mem_iff_getElem?.mp hpc
      refine ⟨some t, s.setPc t .woken, if_pos ?_⟩
      rw [ht]
      exact hwaiting

/-- An item is not disturbed by what is enqueued. -/
theorem running_enqueue {w w' : ι} {point : κ} {woken : Option Nat}
    (hpc : s.threads[t]? = some (.running w point))
    (hstep : step s (.enqueue w' woken) = some s') :
    s'.threads[t]? = some (.running w point) := by
  have hpushed : (s.push w').threads[t]? = some (.running w point) := by
    unfold push
    dsimp only
    split
    · show (s.threads ++ [PoolPc.entering])[t]? = _
      rw [List.getElem?_append_left (List.getElem?_eq_some_iff.mp hpc).1]
      exact hpc
    · exact hpc
  rcases step_cases hstep with ⟨-, rfl⟩ | ⟨-, hnotify⟩
  · exact hpc
  · rcases notifyOne_cases hnotify with ⟨t', ha, rfl⟩ | ⟨-, rfl⟩
    · have hne : t' ≠ t := by
        rintro rfl
        rw [hpushed] at ha
        cases ha
      show ((s.push w').threads.set t' .woken)[t]? = _
      rw [List.getElem?_set_ne hne]
      exact hpushed
    · exact hpushed

/-- The price of a step, for somebody who knows what it enqueues. -/
theorem cost_of_enqueued (h : Inv s) {x : PoolAction ι κ ε} (hstep : step s x = some s') :
    match x with
    | .enqueue _ _ => s'.cost ≤ s.cost + 7
    | _ => s'.cost + x.paid.toNat ≤ s.cost + x.isWake.toNat := by
  have hcost := cost_step h hstep
  have hcases := step_cases hstep
  cases x with
  | enqueue w woken =>
      have henqueued : s'.enqueued.length ≤ s.enqueued.length + 1 := by
        rcases hcases with ⟨-, rfl⟩ | ⟨-, hnotify⟩
        · exact Nat.le_succ _
        · rw [(cost_notifyOne hnotify).2, enqueued_push, List.length_append]
          exact Nat.le_refl _
      simp only [PoolAction.paid, PoolAction.isWake, Bool.toNat_false] at hcost
      dsimp only
      omega
  | lock t =>
      have henqueued : s'.enqueued = s.enqueued := by
        rcases hcases with ⟨-, rfl⟩ | ⟨exc, -, rfl⟩
        · exact enqueued_await t s
        · exact (enqueued_await t _).trans (enqueued_record t exc s)
      rw [henqueued] at hcost
      dsimp only
      omega
  | stop =>
      have henqueued : s'.enqueued = s.enqueued := by
        obtain ⟨exc, -, ⟨-, rfl⟩ | ⟨-, rfl⟩⟩ := hcases
        · exact enqueued_stopped exc _
        · rfl
      rw [henqueued] at hcost
      dsimp only
      omega
  | join =>
      have henqueued : s'.enqueued = s.enqueued := by
        obtain ⟨t, workers, exc, -, -, ⟨-, rfl⟩ | ⟨-, rfl⟩⟩ := hcases
        · exact enqueued_stopped exc s
        · rfl
      rw [henqueued] at hcost
      dsimp only
      omega
  | check =>
      obtain ⟨t, -, -, -, ⟨e, -, rfl⟩ | ⟨-, rfl⟩⟩ := hcases <;> (dsimp only at hcost ⊢; omega)
  | process =>
      obtain ⟨-, rfl⟩ := hcases
      dsimp only [enter] at hcost ⊢
      omega
  | work t point =>
      obtain ⟨w, point', -, rfl⟩ := hcases
      dsimp only [setPc] at hcost ⊢
      omega
  | finish t =>
      obtain ⟨w, point, -, rfl⟩ := hcases
      dsimp only [setPc] at hcost ⊢
      omega
  | throw t e =>
      obtain ⟨w, point, -, rfl⟩ := hcases
      dsimp only [setPc] at hcost ⊢
      omega
  | wake t =>
      obtain ⟨-, rfl⟩ := hcases
      dsimp only [setPc] at hcost ⊢
      omega
  | notify =>
      obtain ⟨workers, exc, -, rfl⟩ := hcases
      dsimp only [notifyAll] at hcost ⊢
      omega
  | destroy =>
      obtain ⟨-, rfl⟩ := hcases
      dsimp only at hcost ⊢
      omega

-- ============================================================================
-- Section 3: Whole runs
-- ============================================================================

theorem inv_run {maxThreads hardwareConcurrency : Nat} {l : List (PoolAction ι κ ε)}
    (hrun : (system ι κ ε maxThreads hardwareConcurrency).run l
      (new maxThreads hardwareConcurrency) = some s) : Inv s :=
  System.run_keeps (I := Inv) (fun _ _ _ h hstep => inv_step h hstep) (inv_new _ _) hrun

/-- A run is no longer than the items that were enqueued account for, and the
    threads that woke up by themselves. -/
theorem paid_run {maxThreads hardwareConcurrency : Nat} {l : List (PoolAction ι κ ε)}
    (hrun : (system ι κ ε maxThreads hardwareConcurrency).run l
      (new maxThreads hardwareConcurrency) = some s) :
    l.countP PoolAction.paid ≤ 10 + 7 * s.enqueued.length + l.countP PoolAction.isWake := by
  have hpaid : s.cost + 7 * 0 + (l.map fun x => x.paid.toNat).sum ≤
      10 + 7 * s.enqueued.length + (l.map fun x => x.isWake.toNat).sum :=
    System.run_cost (I := Inv) (fun _ _ _ h hstep => inv_step h hstep)
      (fun _ _ _ h hstep => cost_step h hstep) (inv_new _ _) hrun
  rw [sum_map_toNat, sum_map_toNat] at hpaid
  omega

/-- On every schedule: when `process()` returns, every item that was enqueued,
    by whomever, has run to its end once, and none has thrown.  If an item has
    thrown, `process()` does not return but throws what an item threw.  When it
    is over, either way, no item is being executed; and it is over once nothing
    but spurious wake-ups can happen, which comes about after so many steps. -/
theorem process_runs_each_once (maxThreads hardwareConcurrency : Nat)
    {l : List (PoolAction ι κ ε)}
    (hrun : (system ι κ ε maxThreads hardwareConcurrency).run l
      (new maxThreads hardwareConcurrency) = some s) :
    (s.result = some (.ok ()) → s.completed.Perm s.enqueued ∧ s.threw = []) ∧
    (s.threw ≠ [] → s.result ≠ some (.ok ()) ∧ (s.draining = true → s.Idle →
      ∃ w e, (w, e) ∈ s.threw ∧ s.result = some (.error e))) ∧
    (∀ e, s.result = some (.error e) → ∃ w, (w, e) ∈ s.threw) ∧
    (s.result ≠ none → s.jobs = []) ∧
    (s.draining = true → s.Idle → s.result ≠ none) ∧
    l.countP PoolAction.paid ≤ 10 + 7 * s.enqueued.length + l.countP PoolAction.isWake := by
  have hinv := inv_run hrun
  have hblamed : ∀ e, s.result = some (.error e) → ∃ w, (w, e) ∈ s.threw :=
    fun e he => hinv.ledger.blamed e (hinv.owner.failing e (Or.inr he))
  refine ⟨fun hok => ?_, fun hthrew => ⟨fun hok => ?_, fun hdraining hidle => ?_⟩, hblamed,
    hinv.jobs_eq_nil, fun hdraining hidle => hinv.result_of_idle hdraining hidle, paid_run hrun⟩
  · obtain ⟨hperm, hnone, -⟩ := hinv.completed_of_ok hok
    exact ⟨hperm, hnone⟩
  · exact hthrew (hinv.completed_of_ok hok).2.1
  · have hover := hinv.result_of_idle hdraining hidle
    cases hresult : s.result with
    | none => exact absurd hresult hover
    | some r =>
        cases r with
        | ok u => exact absurd (hinv.completed_of_ok hresult).2.1 hthrew
        | error e =>
            obtain ⟨w, hw⟩ := hblamed e hresult
            exact ⟨w, e, hw, rfl⟩

/-- A worker and the caller share three items, of which the first enqueues the
    last; the caller is waiting when the worker notices that all is done. -/
def sharedItems : List (PoolAction Nat Unit String) :=
  [.enqueue 1 none, .enqueue 2 none, .process, .lock 0, .lock 1, .enqueue 3 none, .finish 0,
    .lock 0, .finish 1, .lock 1, .finish 0, .lock 0, .lock 1, .check]

/-- How the pool ends up. -/
def sharedEnd : ThreadPool Nat Unit String where
  maxThreads := 2
  pending := []
  active := 0
  exception := none
  workers := [0]
  draining := true
  quit := true
  threads := [.returned, .returned]
  caller := .ended
  result := some (.ok ())
  enqueued := [1, 2, 3]
  completed := [1, 2, 3]
  threw := []

theorem process_runs_sharedItems :
    (system Nat Unit String 2 0).run sharedItems (new 2 0) = some sharedEnd ∧
    sharedEnd.completed.Perm sharedEnd.enqueued ∧ sharedEnd.threw = [] :=
  ⟨by decide +kernel,
    (process_runs_each_once 2 0 (l := sharedItems) (by decide +kernel)).1 rfl⟩

end ThreadPool
end NixStore
