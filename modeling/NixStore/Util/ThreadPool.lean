/-
  NixStore.Util.ThreadPool

  `ThreadPool` of `libutil/thread-pool.{hh,cc}`.

  A step of the system is what one thread does while it holds the lock of
  `state_`, a call of the condition variable outside of it, or something that a
  work item does.  What an item does is left open: it may enqueue any item at
  any time, go on, return or throw.  `notify_one` wakes any of the threads that
  wait, and a thread may wake up without having been notified.  Starting a
  thread does not fail here, and interrupts reach an item as exceptions.

  A thread of the pool has called `doWork`: a worker, or the thread that is in
  `process()`.  The counters count where these threads are (`Ledger`), and the
  flags follow from the counts (`Flags`).
-/

import NixStore.Lib.Replace
import NixStore.Lib.Transition
import Mathlib.Tactic.ByContra

namespace NixStore

-- ============================================================================
-- Section 1: The state and its steps
-- ============================================================================

/-- Where a thread is in `ThreadPool::doWork`. -/
inductive PoolPc (ι κ ε : Type) where
  /-- Before the lock is taken for the first time. -/
  | entering
  /-- In `state.wait(work)`. -/
  | waiting
  /-- On the way back from it. -/
  | woken
  /-- In `w()`; `point` is where the item is. -/
  | running (w : ι) (point : κ)
  /-- `w()` is over, with what it threw. -/
  | finished (exc : Option ε)
  | returned
deriving DecidableEq

namespace PoolPc

variable {ι κ ε : Type}

def isWaiting : PoolPc ι κ ε → Bool
  | .waiting => true
  | _ => false

def isReturned : PoolPc ι κ ε → Bool
  | .returned => true
  | _ => false

/-- The thread is counted in `active`. -/
def busy : PoolPc ι κ ε → Bool
  | .running _ _ => true
  | .finished _ => true
  | _ => false

/-- The thread has something to do. -/
def awake : PoolPc ι κ ε → Bool
  | .waiting => false
  | .returned => false
  | _ => true

/-- The thread has caught an exception. -/
def caught : PoolPc ι κ ε → Bool
  | .finished (some _) => true
  | _ => false

/-- The thread executes an item of a kind. -/
def runs (q : ι → Bool) : PoolPc ι κ ε → Bool
  | .running w _ => q w
  | _ => false

/-- The item that is being executed, and where it is. -/
def job : PoolPc ι κ ε → Option (ι × κ)
  | .running w point => some (w, point)
  | _ => none

/-- What `notify_all` does to a thread. -/
def wake : PoolPc ι κ ε → PoolPc ι κ ε
  | .waiting => .woken
  | pc => pc

end PoolPc

/-- Where the owner of the pool is.  `exc` is the exception that `process()`
    throws once it has shut the pool down, or `none` in the destructor. -/
inductive PoolCaller (ε : Type) where
  /-- `process()` has not been called. -/
  | idle
  /-- In `doWork(true)`, as one of the threads. -/
  | working (t : Nat)
  /-- Before the lock is taken in `shutdown()`. -/
  | stopping (exc : Option ε)
  /-- Before `work.notify_all()` in `shutdown()`. -/
  | notifying (workers : List Nat) (exc : Option ε)
  | joining (workers : List Nat) (exc : Option ε)
  /-- `process()` is over. -/
  | ended
  | destroyed
deriving DecidableEq

namespace PoolCaller

variable {ε : Type}

/-- The workers that have not been joined yet. -/
def toJoin : PoolCaller ε → List Nat
  | .notifying workers _ => workers
  | .joining workers _ => workers
  | _ => []

/-- The workers have been taken out of the state and not all been joined. -/
def halting : PoolCaller ε → Bool
  | .notifying _ _ => true
  | .joining _ _ => true
  | _ => false

/-- The workers have not been notified yet. -/
def toNotify : PoolCaller ε → Bool
  | .notifying _ _ => true
  | _ => false

/-- What `process()` is about to throw. -/
def exc : PoolCaller ε → Option ε
  | .stopping exc => exc
  | .notifying _ exc => exc
  | .joining _ exc => exc
  | _ => none

/-- In `process()`. -/
def inProcess : PoolCaller ε → Bool
  | .working _ => true
  | .stopping (some _) => true
  | .notifying _ (some _) => true
  | .joining _ (some _) => true
  | _ => false

/-- In `process()` or in the destructor. -/
def inCall : PoolCaller ε → Bool
  | .idle => false
  | .ended => false
  | .destroyed => false
  | _ => true

/-- In the destructor, or behind it. -/
def destroying : PoolCaller ε → Bool
  | .stopping none => true
  | .notifying _ none => true
  | .joining _ none => true
  | .destroyed => true
  | _ => false

end PoolCaller

/-- A `ThreadPool`, with the threads that are in `doWork` and what happened so
    far.  `ι` are the work items, `κ` the points an item can be at. -/
structure ThreadPool (ι κ ε : Type) where
  maxThreads : Nat
  pending : List ι
  active : Nat
  exception : Option ε
  workers : List Nat
  draining : Bool
  quit : Bool
  threads : List (PoolPc ι κ ε)
  caller : PoolCaller ε
  /-- How `process()` ended. -/
  result : Option (Except ε Unit)
  /-- The items that `enqueue` took. -/
  enqueued : List ι
  /-- The items that returned. -/
  completed : List ι
  /-- The items that threw. -/
  threw : List (ι × ε)
deriving DecidableEq

namespace ThreadPool

variable {ι κ ε : Type}

/-- `ThreadPool::ThreadPool`. -/
def new (maxThreads hardwareConcurrency : Nat) : ThreadPool ι κ ε where
  maxThreads :=
    if maxThreads = 0 then (if hardwareConcurrency = 0 then 1 else hardwareConcurrency)
    else maxThreads
  pending := []
  active := 0
  exception := none
  workers := []
  draining := false
  quit := false
  threads := []
  caller := .idle
  result := none
  enqueued := []
  completed := []
  threw := []

/-- A thread goes on. -/
def setPc (t : Nat) (pc : PoolPc ι κ ε) (s : ThreadPool ι κ ε) : ThreadPool ι κ ε :=
  { s with threads := s.threads.set t pc }

/-- `work.notify_all()`. -/
def notifyAll (s : ThreadPool ι κ ε) : ThreadPool ι κ ε :=
  { s with threads := s.threads.map PoolPc.wake }

/-- `work.notify_one()`: one of the waiting threads, if there are any. -/
def notifyOne (woken : Option Nat) (s : ThreadPool ι κ ε) : Option (ThreadPool ι κ ε) :=
  match woken with
  | some t => if s.threads[t]?.any PoolPc.isWaiting then some (s.setPc t .woken) else none
  | none => if s.threads.any PoolPc.isWaiting then none else some s

/-- A thread that calls `doWork`. -/
def enter (s : ThreadPool ι κ ε) : ThreadPool ι κ ε :=
  { s with threads := s.threads ++ [.entering] }

/-- The part of `ThreadPool::enqueue` behind the check of `quit`, up to the
    notification. -/
def push (w : ι) (s : ThreadPool ι κ ε) : ThreadPool ι κ ε :=
  let s := { s with pending := s.pending ++ [w], enqueued := s.enqueued ++ [w] }
  if s.workers.length + 1 < s.pending.length ∧ s.workers.length + 1 < s.maxThreads then
    { s.enter with workers := s.workers ++ [s.threads.length] }
  else s

/-- `ThreadPool::enqueue`.  It throws `ThreadPoolShutDown` if the pool is being
    shut down, which leaves the pool as it is. -/
def enqueue (w : ι) (woken : Option Nat) (s : ThreadPool ι κ ε) : Option (ThreadPool ι κ ε) :=
  if s.quit then some s else notifyOne woken (s.push w)

/-- The part of `doWork` for an item that is over; `exc` is what it threw.  An
    exception that is not the first one is only printed. -/
def record (t : Nat) (exc : Option ε) (s : ThreadPool ι κ ε) : ThreadPool ι κ ε :=
  let s := { s with active := s.active - 1 }.setPc t .woken
  match exc, s.exception with
  | some e, none => notifyAll { s with exception := some e, quit := true }
  | _, _ => s

/-- The inner loop of `doWork`, up to the next wait. -/
def await [Inhabited κ] (t : Nat) (s : ThreadPool ι κ ε) : ThreadPool ι κ ε :=
  if s.quit then s.setPc t .returned
  else
    match s.pending with
    | w :: pending =>
        { s with pending, active := s.active + 1 }.setPc t (.running w default)
    | [] =>
        if s.active = 0 ∧ s.draining then notifyAll ({ s with quit := true }.setPc t .returned)
        else s.setPc t .waiting

/-- What a thread of `doWork` does while it has the lock.  An assertion that
    fails stops it. -/
def lockStep [Inhabited κ] (t : Nat) (s : ThreadPool ι κ ε) : Option (ThreadPool ι κ ε) :=
  match s.threads[t]? with
  | some .entering => some (s.await t)
  | some .woken => some (s.await t)
  | some (.finished exc) => if s.active = 0 then none else some ((s.record t exc).await t)
  | _ => none

/-- The end of `ThreadPool::process`, behind `doWork`. -/
def check (s : ThreadPool ι κ ε) : Option (ThreadPool ι κ ε) :=
  match s.caller with
  | .working t =>
      if s.threads[t]?.any PoolPc.isReturned then
        if s.quit then
          match s.exception with
          | some e => some { s with caller := .stopping (some e) }
          | none => some { s with caller := .ended, result := some (.ok ()) }
        else none
      else none
  | _ => none

/-- The end of `shutdown()`, and of what called it. -/
def stopped (exc : Option ε) (s : ThreadPool ι κ ε) : ThreadPool ι κ ε :=
  match exc with
  | some e => { s with caller := .ended, result := some (.error e) }
  | none => { s with caller := .destroyed }

/-- What happens in a pool. -/
inductive PoolAction (ι κ ε : Type) where
  /-- `enqueue`, called by the owner, by an item or from elsewhere; `woken` is
      the thread that is notified. -/
  | enqueue (w : ι) (woken : Option Nat)
  /-- `process()` is called. -/
  | process
  /-- A thread of `doWork` takes the lock. -/
  | lock (t : Nat)
  /-- The item of a thread gets to another point. -/
  | work (t : Nat) (point : κ)
  /-- The item of a thread returns. -/
  | finish (t : Nat)
  /-- The item of a thread throws. -/
  | throw (t : Nat) (e : ε)
  /-- A waiting thread wakes up by itself. -/
  | wake (t : Nat)
  /-- The check of `process()` for an exception. -/
  | check
  /-- The locked part of `shutdown()`. -/
  | stop
  /-- `shutdown()` notifies the workers. -/
  | notify
  /-- `shutdown()` joins the next worker. -/
  | join
  /-- The destructor is called. -/
  | destroy

/-- What happens by itself, once work has been enqueued and `process()` or the
    destructor has been called. -/
def PoolAction.own : PoolAction ι κ ε → Bool
  | .lock _ => true
  | .finish _ => true
  | .throw _ _ => true
  | .check => true
  | .stop => true
  | .notify => true
  | .join => true
  | _ => false

/-- What costs the pool itself a step; how often items are enqueued and what
    they do is up to others. -/
def PoolAction.paid : PoolAction ι κ ε → Bool
  | .enqueue _ _ => false
  | .work _ _ => false
  | .wake _ => false
  | _ => true

/-- What the threads and the owner do outside of the items. -/
def PoolAction.between : PoolAction ι κ ε → Bool
  | .lock _ => true
  | .wake _ => true
  | .check => true
  | .stop => true
  | .notify => true
  | .join => true
  | _ => false

def PoolAction.isWake : PoolAction ι κ ε → Bool
  | .wake _ => true
  | _ => false

/-- Take a step. -/
def step [Inhabited κ] (s : ThreadPool ι κ ε) : PoolAction ι κ ε → Option (ThreadPool ι κ ε)
  | .enqueue w woken => s.enqueue w woken
  | .process =>
      match s.caller with
      | .idle => some { s.enter with draining := true, caller := .working s.threads.length }
      | _ => none
  | .lock t => s.lockStep t
  | .work t point =>
      match s.threads[t]? with
      | some (.running w _) => some (s.setPc t (.running w point))
      | _ => none
  | .finish t =>
      match s.threads[t]? with
      | some (.running w _) =>
          some { s.setPc t (.finished none) with completed := s.completed ++ [w] }
      | _ => none
  | .throw t e =>
      match s.threads[t]? with
      | some (.running w _) =>
          some { s.setPc t (.finished (some e)) with threw := s.threw ++ [(w, e)] }
      | _ => none
  | .wake t =>
      match s.threads[t]? with
      | some .waiting => some (s.setPc t .woken)
      | _ => none
  | .check => s.check
  | .stop =>
      match s.caller with
      | .stopping exc =>
          let s' := { s with quit := true, workers := [] }
          if s.workers = [] then some (s'.stopped exc)
          else some { s' with caller := .notifying s.workers exc }
      | _ => none
  | .notify =>
      match s.caller with
      | .notifying workers exc => some { s.notifyAll with caller := .joining workers exc }
      | _ => none
  | .join =>
      match s.caller with
      | .joining (t :: workers) exc =>
          if s.threads[t]?.any PoolPc.isReturned then
            if workers = [] then some (s.stopped exc)
            else some { s with caller := .joining workers exc }
          else none
      | _ => none
  | .destroy =>
      match s.caller with
      | .idle => some { s with caller := .stopping none }
      | .ended => some { s with caller := .stopping none }
      | _ => none

/-- Nothing happens unless a waiting thread wakes up by itself. -/
def Idle [Inhabited κ] (s : ThreadPool ι κ ε) : Prop := ∀ x, x.own = true → s.step x = none

/-- The items that are being executed, and where they are. -/
def jobs (s : ThreadPool ι κ ε) : List (ι × κ) := s.threads.filterMap PoolPc.job

/-- The items that are not over. -/
def items [Inhabited κ] (s : ThreadPool ι κ ε) : List (ι × κ) :=
  s.pending.map (fun w => (w, default)) ++ s.jobs

/-- A pool as a system. -/
def system (ι κ ε : Type) [Inhabited κ] (maxThreads hardwareConcurrency : Nat) :
    System (ThreadPool ι κ ε) (PoolAction ι κ ε) where
  init s := s = new maxThreads hardwareConcurrency
  step := step

-- ============================================================================
-- Section 2: What the steps do
-- ============================================================================

variable {s s' : ThreadPool ι κ ε} {t : Nat} {a b : PoolPc ι κ ε}

theorem any_isWaiting {o : Option (PoolPc ι κ ε)} :
    o.any PoolPc.isWaiting = true ↔ o = some .waiting := by
  rw [Option.any_eq_true]
  constructor
  · rintro ⟨pc, rfl, hpc⟩
    cases pc <;> first | rfl | cases hpc
  · exact fun h => ⟨_, h, rfl⟩

theorem any_isReturned {o : Option (PoolPc ι κ ε)} :
    o.any PoolPc.isReturned = true ↔ o = some .returned := by
  rw [Option.any_eq_true]
  constructor
  · rintro ⟨pc, rfl, hpc⟩
    cases pc <;> first | rfl | cases hpc
  · exact fun h => ⟨_, h, rfl⟩

/-- One waiting thread wakes up, or none waits. -/
theorem notifyOne_cases {woken : Option Nat} (h : notifyOne woken s = some s') :
    (∃ t, s.threads[t]? = some .waiting ∧ s' = s.setPc t .woken) ∨
    (s.threads.countP PoolPc.isWaiting = 0 ∧ s' = s) := by
  cases woken with
  | none =>
      obtain ⟨hnone, heq⟩ := Option.ite_none_left_eq_some.mp h
      refine Or.inr ⟨List.countP_eq_zero.mpr fun pc hpc hwaiting => hnone ?_,
        (Option.some.inj heq).symm⟩
      exact List.any_eq_true.mpr ⟨pc, hpc, hwaiting⟩
  | some t =>
      obtain ⟨hwaiting, heq⟩ := Option.ite_none_right_eq_some.mp h
      exact Or.inl ⟨t, any_isWaiting.mp hwaiting, (Option.some.inj heq).symm⟩

theorem record_of_none (t : Nat) (s : ThreadPool ι κ ε) : s.record t none
    = { s with active := s.active - 1, threads := s.threads.set t .woken } := rfl

theorem record_of_first {e : ε} (h : s.exception = none) : s.record t (some e) =
    { s with
      active := s.active - 1
      exception := some e
      quit := true
      threads := (s.threads.set t .woken).map PoolPc.wake } := by
  simp only [record, setPc, h, notifyAll]

theorem record_of_later {e e' : ε} (h : s.exception = some e') : s.record t (some e)
    = { s with active := s.active - 1, threads := s.threads.set t .woken } := by
  simp only [record, setPc, h]

variable [Inhabited κ]

/-- How the inner loop of `doWork` ends: the thread returns, takes an item, is
    the last one and ends everything, or waits. -/
theorem await_cases (t : Nat) (s : ThreadPool ι κ ε) :
    (s.quit = true ∧ s.await t = s.setPc t .returned) ∨
    (s.quit = false ∧ ∃ w pending, s.pending = w :: pending ∧ s.await t =
      { s with
        pending
        active := s.active + 1
        threads := s.threads.set t (.running w default) }) ∨
    (s.quit = false ∧ s.pending = [] ∧ s.active = 0 ∧ s.draining = true ∧ s.await t =
      { s with quit := true, threads := (s.threads.set t .returned).map PoolPc.wake }) ∨
    (s.quit = false ∧ s.pending = [] ∧ ¬ (s.active = 0 ∧ s.draining = true) ∧
      s.await t = s.setPc t .waiting) := by
  unfold await
  cases hquit : s.quit with
  | true => exact Or.inl ⟨rfl, if_pos rfl⟩
  | false =>
      refine Or.inr ?_
      simp only [Bool.false_eq_true, if_false, true_and]
      cases hpending : s.pending with
      | cons w pending => exact Or.inl ⟨w, pending, rfl, rfl⟩
      | nil =>
          refine Or.inr ?_
          by_cases hlast : s.active = 0 ∧ s.draining = true
          · exact Or.inl ⟨rfl, hlast.1, hlast.2, if_pos hlast⟩
          · exact Or.inr ⟨rfl, hlast, if_neg hlast⟩

/-- What each step does, and when it can be taken. -/
theorem step_cases {x : PoolAction ι κ ε} (h : step s x = some s') :
    match x with
    | .enqueue w woken => (s.quit = true ∧ s' = s) ∨
        (s.quit = false ∧ notifyOne woken (s.push w) = some s')
    | .process => s.caller = .idle ∧
        s' = { s.enter with draining := true, caller := .working s.threads.length }
    | .lock t =>
        ((s.threads[t]? = some .entering ∨ s.threads[t]? = some .woken) ∧ s' = s.await t) ∨
        (∃ exc, s.threads[t]? = some (.finished exc) ∧ s' = (s.record t exc).await t)
    | .work t point => ∃ w point', s.threads[t]? = some (.running w point') ∧
        s' = s.setPc t (.running w point)
    | .finish t => ∃ w point, s.threads[t]? = some (.running w point) ∧
        s' = { s.setPc t (.finished none) with completed := s.completed ++ [w] }
    | .throw t e => ∃ w point, s.threads[t]? = some (.running w point) ∧
        s' = { s.setPc t (.finished (some e)) with threw := s.threw ++ [(w, e)] }
    | .wake t => s.threads[t]? = some .waiting ∧ s' = s.setPc t .woken
    | .check => ∃ t, s.caller = .working t ∧ s.threads[t]? = some .returned ∧ s.quit = true ∧
        ((∃ e, s.exception = some e ∧ s' = { s with caller := .stopping (some e) }) ∨
          (s.exception = none ∧ s' = { s with caller := .ended, result := some (.ok ()) }))
    | .stop => ∃ exc, s.caller = .stopping exc ∧
        ((s.workers = [] ∧ s' = stopped exc { s with quit := true, workers := [] }) ∨
          (s.workers ≠ [] ∧ s' =
            { s with quit := true, workers := [], caller := .notifying s.workers exc }))
    | .notify => ∃ workers exc, s.caller = .notifying workers exc ∧
        s' = { s.notifyAll with caller := .joining workers exc }
    | .join => ∃ t workers exc, s.caller = .joining (t :: workers) exc ∧
        s.threads[t]? = some .returned ∧
        ((workers = [] ∧ s' = s.stopped exc) ∨
          (workers ≠ [] ∧ s' = { s with caller := .joining workers exc }))
    | .destroy => (s.caller = .idle ∨ s.caller = .ended) ∧
        s' = { s with caller := .stopping none } := by
  cases x with
  -- the steps of the threads of the pool, then those of the thread that owns it
  | enqueue w woken =>
      simp only [step, enqueue] at h
      cases hquit : s.quit with
      | true =>
          rw [hquit, if_pos rfl] at h
          exact Or.inl ⟨rfl, (Option.some.inj h).symm⟩
      | false =>
          rw [hquit, if_neg Bool.false_ne_true] at h
          exact Or.inr ⟨rfl, h⟩
  | process =>
      simp only [step] at h
      split at h
      · next hidle => exact ⟨hidle, (Option.some.inj h).symm⟩
      · cases h
  | lock t =>
      simp only [step, lockStep] at h
      split at h
      · next hpc => exact Or.inl ⟨Or.inl hpc, (Option.some.inj h).symm⟩
      · next hpc => exact Or.inl ⟨Or.inr hpc, (Option.some.inj h).symm⟩
      · next exc hpc =>
          obtain ⟨-, heq⟩ := Option.ite_none_left_eq_some.mp h
          exact Or.inr ⟨exc, hpc, (Option.some.inj heq).symm⟩
      · cases h
  | work t point =>
      simp only [step] at h
      split at h
      · next w point' hpc => exact ⟨w, point', hpc, (Option.some.inj h).symm⟩
      · cases h
  | finish t =>
      simp only [step] at h
      split at h
      · next w point hpc => exact ⟨w, point, hpc, (Option.some.inj h).symm⟩
      · cases h
  | throw t e =>
      simp only [step] at h
      split at h
      · next w point hpc => exact ⟨w, point, hpc, (Option.some.inj h).symm⟩
      · cases h
  | wake t =>
      simp only [step] at h
      split at h
      · next hpc => exact ⟨hpc, (Option.some.inj h).symm⟩
      · cases h
  -- it has come back from `doWork`: an exception is thrown after `shutdown`
  | check =>
      simp only [step, check] at h
      split at h
      · next t hcaller =>
          obtain ⟨hreturned, h⟩ := Option.ite_none_right_eq_some.mp h
          obtain ⟨hquit, h⟩ := Option.ite_none_right_eq_some.mp h
          refine ⟨t, hcaller, any_isReturned.mp hreturned, hquit, ?_⟩
          split at h
          · next e he => exact Or.inl ⟨e, he, (Option.some.inj h).symm⟩
          · next he => exact Or.inr ⟨he, (Option.some.inj h).symm⟩
      · cases h
  | stop =>
      simp only [step] at h
      split at h
      · next exc hcaller =>
          refine ⟨exc, hcaller, ?_⟩
          split at h
          · next hnone => exact Or.inl ⟨hnone, (Option.some.inj h).symm⟩
          · next hsome => exact Or.inr ⟨hsome, (Option.some.inj h).symm⟩
      · cases h
  | notify =>
      simp only [step] at h
      split at h
      · next workers exc hcaller => exact ⟨workers, exc, hcaller, (Option.some.inj h).symm⟩
      · cases h
  -- a thread is joined once it has left `doWork`
  | join =>
      simp only [step] at h
      split at h
      · next t workers exc hcaller =>
          obtain ⟨hreturned, h⟩ := Option.ite_none_right_eq_some.mp h
          refine ⟨t, workers, exc, hcaller, any_isReturned.mp hreturned, ?_⟩
          split at h
          · next hnone => exact Or.inl ⟨hnone, (Option.some.inj h).symm⟩
          · next hsome => exact Or.inr ⟨hsome, (Option.some.inj h).symm⟩
      · cases h
  | destroy =>
      simp only [step] at h
      split at h
      · next hcaller => exact ⟨Or.inl hcaller, (Option.some.inj h).symm⟩
      · next hcaller => exact ⟨Or.inr hcaller, (Option.some.inj h).symm⟩
      · cases h

end ThreadPool
end NixStore
