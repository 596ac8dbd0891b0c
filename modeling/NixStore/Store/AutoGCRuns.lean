/-
  NixStore.Store.AutoGCRuns

  What every order of the threads that use one store comes to: one collection
  at a time (`autoGC_single`), and every call of `autoGC` and the destructor
  return (`autoGC_returns`).
-/

import NixStore.Store.AutoGCInv
import Mathlib.Algebra.Order.BigOperators.Group.Finset
import Mathlib.Data.Prod.Lex

namespace NixStore
namespace AutoGC

variable {Cid : Type} [DecidableEq Cid] [Fintype Cid] {settings : Settings} {s s' : State Cid}

-- ============================================================================
-- One collection at a time
-- ============================================================================

/-- What holds of the collections at any time. -/
structure Orderly (settings : Settings) (s : State Cid) : Prop where
  /-- No two threads collect, or have yet to say that they have. -/
  single : ∀ g g', (s.thread g).active = true → (s.thread g').active = true → g = g'
  /-- `gcRunning` says that there is one, or that one could not be made. -/
  running : s.gcRunning = true ↔ (∃ g, (s.thread g).active = true) ∨ ∃ g, s.promise g = .broken
  /-- `gcThread` is never overwritten while it is joinable. -/
  joined : ∀ c sync avail, s.pc c = .start sync avail → s.joinable = false
  /-- Whoever waits for a future waits for the thread that has the promise. -/
  awaited : ∀ c sync g, s.pc c = .wait sync g → s.promise g = .pending →
    (s.thread g).active = true
  /-- The subtraction of `options.maxFreed` does not wrap around. -/
  maxFreed : ∀ g, s.thread g ≠ .notStarted → 0 < s.maxFreed g ∧ s.maxFreed g ≤ settings.maxFree
  /-- The free space is not looked at too often. -/
  spaced : s.checks.Pairwise fun later earlier =>
    earlier + settings.minFreeCheckInterval ≤ later
  /-- The destructor leaves no thread behind. -/
  left : s.destructor = .done → ∀ g, s.thread g = .notStarted ∨ s.thread g = .exited
  /-- It throws only after a thread could not be made. -/
  terminated : s.destructor = .terminated → ∃ g, s.promise g = .broken

namespace Sample

/-- Room for 100 is kept, and up to 200 is freed. -/
def room : Settings where
  minFree := 100
  maxFree := 200
  minFreeCheckInterval := 5
  littleLost := fun _ _ => false

/-- Two calls, the first one of which waits for the collection that it starts,
    and the destructor. -/
def calls : List (Act Bool) :=
  [.client false (.call true), .client true (.call false), .client false .lock,
    .client false (.look 10), .client false (.getAvail (some 50)), .client false (.start (some 1)),
    .client true .lock, .client true (.look 11), .thread 1 .lock, .thread 1 .unlock,
    .client true .get, .thread 1 .collected, .thread 1 (.getAvail (some 150)), .thread 1 .lock,
    .thread 1 .store, .thread 1 .lock, .thread 1 (.finish 20), .client false .get,
    .destructor .call, .destructor .lock, .destructor .look, .destructor .lock, .thread 1 .exit,
    .destructor .join]

theorem reachable {s : State Bool} {l : List (Act Bool)}
    (h : (system room).run l initial = some s) : Reachable room s :=
  (System.Reachable.init rfl).run (fun _ _ _ => trivial) h

end Sample

/-- The steps that a call still takes. -/
def ClientPc.left : ClientPc → Nat
  | .idle => 0
  | .wantLock _ => 6
  | .look _ => 5
  | .getAvail .. => 4
  | .join .. => 3
  | .start .. => 2
  | .wait .. => 1

def DestructorPc.left : DestructorPc → Nat
  | .notCalled | .done | .terminated => 0
  | .wantLock => 5
  | .look => 4
  | .wait _ => 3
  | .wantLockAgain => 2
  | .join => 1

def Phase.left : Phase → Nat
  | .notStarted | .exited => 0
  | .collecting uses => 2 * uses + 7
  | .using_ uses => 2 * uses + 8
  | .getAvail => 6
  | .wantStore _ => 5
  | .store _ => 4
  | .wantFinish => 3
  | .finish => 2
  | .leaving => 1

/-- The steps of the calls and of the destructor, and then those of the
    collector: a call that starts one ends one of its own steps. -/
def State.left (s : State Cid) : Nat ×ₗ Nat :=
  toLex ((∑ c, (s.pc c).left) + s.destructor.left, (s.thread s.gcFuture).left)

/-- One call nearer to its end, and all of them together are. -/
theorem sum_left_update (pc : Cid → ClientPc) (c : Cid) (p : ClientPc)
    (h : p.left < (pc c).left) :
    ∑ d, (Function.update pc c p d).left < ∑ d, (pc d).left := by
  refine Finset.sum_lt_sum (fun d _ => ?_) ⟨c, Finset.mem_univ c, ?_⟩
  · by_cases hd : d = c
    · subst hd
      rw [Function.update_self]
      exact Nat.le_of_lt h
    · rw [Function.update_of_ne hd]
  · rw [Function.update_self]
    exact h

omit [Fintype Cid] in
/-- A step of a call that is not a new call brings it nearer to its end. -/
theorem clientStep_left {c : Cid} {act : ClientAct} (hact : ∀ sync, act ≠ .call sync)
    (hs : clientStep settings s c act = some s') :
    (∃ pc : ClientPc, s'.pc = Function.update s.pc c pc ∧ pc.left < (s.pc c).left) ∧
      s'.destructor = s.destructor := by
  -- one case for each line of `clientStep`, in its order
  unfold clientStep at hs
  split at hs
  · exact absurd rfl (hact _)
  · next hpc =>
      split at hs <;> cases hs
      exact ⟨⟨_, rfl, by rw [hpc]; simp [ClientPc.left]⟩, rfl⟩
  · next hpc =>
      split at hs
      · cases hs
        exact ⟨⟨_, rfl, by rw [hpc]; simp [ClientPc.left]⟩, rfl⟩
      · split at hs
        · cases hs
        · split at hs <;> cases hs <;> exact ⟨⟨_, rfl, by rw [hpc]; simp [ClientPc.left]⟩, rfl⟩
  · next hpc =>
      cases hs
      exact ⟨⟨_, rfl, by rw [hpc]; simp [ClientPc.left]⟩, rfl⟩
  · next hpc =>
      simp only at hs
      split at hs
      · cases hs
        exact ⟨⟨_, rfl, by rw [hpc]; simp [ClientPc.left]⟩, rfl⟩
      · split at hs
        · cases hs
          exact ⟨⟨_, rfl, by rw [hpc]; simp [ClientPc.left]⟩, rfl⟩
        · cases hs
          refine ⟨⟨_, rfl, ?_⟩, rfl⟩
          rw [hpc]
          split <;> simp [ClientPc.left]
  · next hpc =>
      split at hs <;> cases hs
      exact ⟨⟨_, rfl, by rw [hpc]; simp [ClientPc.left]⟩, rfl⟩
  · next hpc =>
      simp only at hs
      split at hs <;> cases hs <;> exact ⟨⟨_, rfl, by rw [hpc]; simp [ClientPc.left]⟩, rfl⟩
  · next hpc =>
      split at hs <;> cases hs
      exact ⟨⟨_, rfl, by rw [hpc]; simp [ClientPc.left]⟩, rfl⟩
  · cases hs

omit [DecidableEq Cid] [Fintype Cid] in
/-- A step of a collector thread brings it nearer to its end. -/
theorem threadStep_left {g : Nat} {act : ThreadAct} (hs : threadStep s g act = some s') :
    s'.pc = s.pc ∧ s'.destructor = s.destructor ∧ s'.gcFuture = s.gcFuture ∧
      (s'.thread g).left < (s.thread g).left := by
  have hself : ∀ (t : State Cid) (phase : Phase), (t.setThread g phase).thread g = phase :=
    fun t phase => Function.update_self ..
  cases threadStep_cases hs with
  | lock hg hfree hplace =>
      refine ⟨rfl, rfl, rfl, ?_⟩
      rw [hself, hg]
      rcases hplace with ⟨uses, rfl, huses, rfl⟩ | ⟨avail, rfl, rfl⟩ | ⟨rfl, rfl⟩ <;>
        simp only [Phase.left] <;> omega
  | unlock hg | collected hg | thrown hg | thrownUsing hg | getAvail hg | getAvailThrows hg
  | store hg | finish hg _ | exit hg =>
      refine ⟨rfl, rfl, rfl, ?_⟩
      rw [hself, hg]
      simp only [Phase.left]
      omega

omit [DecidableEq Cid] in
/-- A step of the destructor brings it nearer to its end. -/
theorem destructorStep_left {act : DestructorAct} (hact : act ≠ .call)
    (hs : destructorStep s act = some s') :
    s'.pc = s.pc ∧ s'.destructor.left < s.destructor.left := by
  cases destructorStep_cases hs with
  | call _ _ => exact absurd rfl hact
  | lock _ hplace =>
      refine ⟨rfl, ?_⟩
      rcases hplace with ⟨hd, rfl⟩ | ⟨hd, rfl⟩ <;> rw [hd] <;> simp [DestructorPc.left]
  | look hd =>
      refine ⟨rfl, ?_⟩
      rw [hd]
      cases s.gcRunning <;> simp [DestructorPc.left]
  | get hd _ | getBroken hd _ | join hd _ =>
      refine ⟨rfl, ?_⟩
      rw [hd]
      simp [DestructorPc.left]

omit [DecidableEq Cid] [Fintype Cid] in
/-- A thread that takes a step is the one of `gcFuture`. -/
theorem Inv.thread_last (h : Inv settings s) {g : Nat} (hg : 0 < (s.thread g).left) :
    g = s.gcFuture := by
  rcases Nat.lt_trichotomy g s.gcFuture with hlt | heq | hlt
  · rcases h.collections.earlier g hlt with hended | hended <;> rw [hended] at hg <;> cases hg
  · exact heq
  · rw [(h.collections.later g hlt).1] at hg
    cases hg

/-- Every step but a new call leaves fewer steps to take. -/
theorem left_decreases (h : Inv settings s) {a : Act Cid} (ha : a.isInternal = true)
    (hs : (system settings).step s a = some s') : s'.left < s.left := by
  rw [State.left, State.left, Prod.Lex.toLex_lt_toLex]
  cases a with
  | client c act =>
      have hact : ∀ sync, act ≠ .call sync := by
        rintro sync rfl
        cases ha
      obtain ⟨⟨pc, hpc, hleft⟩, hdestructor⟩ := clientStep_left hact hs
      -- it may start a collector, whose steps count less than its own
      refine Or.inl ?_
      rw [hpc, hdestructor]
      exact Nat.add_lt_add_right (sum_left_update _ _ _ hleft) _
  | thread g act =>
      obtain ⟨hpc, hdestructor, hfuture, hleft⟩ := threadStep_left hs
      obtain rfl := h.thread_last (Nat.zero_lt_of_lt hleft)
      refine Or.inr ⟨?_, ?_⟩
      · rw [hpc, hdestructor]
      · rw [hfuture]
        exact hleft
  | destructor act =>
      have hact : act ≠ .call := by
        rintro rfl
        cases ha
      obtain ⟨hpc, hleft⟩ := destructorStep_left hact hs
      refine Or.inl ?_
      rw [hpc]
      exact Nat.add_lt_add_left hleft _

/-- Nothing is going on: no call, no collector, and the destructor has not been
    called or is over. -/
structure Quiet (s : State Cid) : Prop where
  clients : ∀ c, s.pc c = .idle
  threads : ∀ g, s.thread g = .notStarted ∨ s.thread g = .exited
  destructor : s.destructor = .notCalled ∨ s.destructor = .done ∨ s.destructor = .terminated
  owner : s.owner = none

/-- No step can be taken but a new call. -/
def Stuck (settings : Settings) (s : State Cid) : Prop :=
  ∀ a : Act Cid, a.isInternal = true → (system settings).step s a = none

/-- No call that is under way can go on. -/
theorem Stuck.client (h : Stuck settings s) (c : Cid) (act : ClientAct)
    (hact : ∀ sync, act ≠ .call sync) : clientStep settings s c act = none := by
  refine h (.client c act) ?_
  cases act with
  | call sync => exact absurd rfl (hact sync)
  | lock | look _ | getAvail _ | join | start _ | get => rfl

/-- No collector can go on. -/
theorem Stuck.thread (h : Stuck settings s) (g : Nat) (act : ThreadAct) :
    threadStep s g act = none := h (.thread g act) rfl

/-- The destructor cannot go on. -/
theorem Stuck.destructor (h : Stuck settings s) (act : DestructorAct) (hact : act ≠ .call) :
    destructorStep s act = none := by
  refine h (.destructor act) ?_
  cases act with
  | call => exact absurd rfl hact
  | lock | look | get | join => rfl

/-- `gcThread.join()` does not wait for a thread that needs the lock. -/
theorem Stuck.join (h : Stuck settings s) (hinv : Inv settings s) (hrunning : s.gcRunning = false)
    (hjoinable : s.joinable = true) : s.thread s.gcFuture = .exited := by
  have hstarted := hinv.collections.joins hjoinable
  cases hg : s.thread s.gcFuture with
  | exited => rfl
  | notStarted => exact absurd hg hstarted
  | leaving =>
      have := h.thread s.gcFuture .exit
      simp [threadStep, hg] at this
  | collecting _ | using_ _ | getAvail | wantStore _ | store _ | wantFinish | finish =>
      have := (hinv.collections.active s.gcFuture (by rw [hg]; rfl)).2.1
      rw [hrunning] at this
      cases this

/-- Whoever has the lock can go on. -/
theorem Stuck.unlocked (h : Stuck settings s) (hinv : Inv settings s) : s.owner = none := by
  cases ho : s.owner with
  | none => rfl
  | some a =>
      have hlocked := (hinv.owner a).mp ho
      -- at every place where the lock is held some step does not need it
      cases a with
      | client c =>
          change (s.pc c).locked = true at hlocked
          have hknows := hinv.knows c
          cases hpc : s.pc c with
          | idle | wantLock _ | wait _ _ =>
              rw [hpc] at hlocked
              cases hlocked
          | look sync =>
              have := h.client c (.look s.clock) fun _ => ClientAct.noConfusion
              simp only [clientStep, hpc, lt_irrefl, if_false] at this
              split at this
              · cases this
              · split at this <;> cases this
          | getAvail sync now =>
              have := h.client c (.getAvail none) fun _ => ClientAct.noConfusion
              simp [clientStep, hpc] at this
          | join sync avail =>
              -- the thread that it joins is past its last lock
              rw [hpc] at hknows
              have hexited := h.join hinv hknows.1 hknows.2.1
              have := h.client c .join fun _ => ClientAct.noConfusion
              simp [clientStep, hpc, hexited] at this
          | start sync avail =>
              have := h.client c (.start none) fun _ => ClientAct.noConfusion
              simp [clientStep, hpc] at this
      | collector g =>
          change (s.thread g).locked = true at hlocked
          cases hg : s.thread g with
          | using_ uses =>
              have := h.thread g .unlock
              simp [threadStep, hg] at this
          | store avail =>
              have := h.thread g .store
              simp [threadStep, hg] at this
          | finish =>
              have := h.thread g (.finish s.clock)
              simp [threadStep, hg] at this
          | notStarted | collecting _ | getAvail | wantStore _ | wantFinish | leaving | exited =>
              rw [hg] at hlocked
              cases hlocked
      | destructor =>
          change s.destructor.locked = true at hlocked
          cases hd : s.destructor with
          | look =>
              have := h.destructor .look DestructorAct.noConfusion
              simp [destructorStep, hd] at this
          | join =>
              -- the destructor joins a thread that has fulfilled its promise
              have hrunning := hinv.destructor.after (Or.inr hd)
              have hended : ¬(s.joinable = true ∧ s.thread s.gcFuture ≠ .exited) :=
                fun hj => hj.2 (h.join hinv hrunning hj.1)
              have := h.destructor .join DestructorAct.noConfusion
              simp only [destructorStep, hd, if_neg hended] at this
              cases this
          | notCalled | wantLock | wait _ | wantLockAgain | done | terminated =>
              rw [hd] at hlocked
              cases hlocked

/-- Nobody waits for nothing. -/
theorem Stuck.quiet (h : Stuck settings s) (hinv : Inv settings s) : Quiet s := by
  have hfree := h.unlocked hinv
  -- the lock is free, so nobody is at a place where only its owner can be
  have hunlocked : ∀ a, s.locked a = false := by
    intro a
    rw [← Bool.not_eq_true, ← hinv.owner a, hfree]
    exact (Option.some_ne_none a).symm
  have hthreads : ∀ g, s.thread g = .notStarted ∨ s.thread g = .exited := by
    intro g
    have hg' := hunlocked (.collector g)
    change (s.thread g).locked = false at hg'
    -- wherever else a collector is, some step of it is possible
    cases hg : s.thread g with
    | notStarted => exact Or.inl rfl
    | exited => exact Or.inr rfl
    | collecting uses =>
        have := h.thread g .thrown
        simp [threadStep, hg] at this
    | getAvail =>
        have := h.thread g (.getAvail none)
        simp [threadStep, hg] at this
    | wantStore avail =>
        have := h.thread g .lock
        simp [threadStep, hg, hfree] at this
    | wantFinish =>
        have := h.thread g .lock
        simp [threadStep, hg, hfree] at this
    | leaving =>
        have := h.thread g .exit
        simp [threadStep, hg] at this
    | using_ _ | store _ | finish =>
        -- here it has the lock
        rw [hg] at hg'
        cases hg'
  -- with no collector left, every future is ready
  have hready : ∀ g, 1 ≤ g → g ≤ s.gcFuture → s.promise g ≠ .pending := by
    intro g h1 hle hpending
    have := hinv.collections.pending g h1 hle hpending
    rcases hthreads g with hg | hg <;> rw [hg] at this <;> cases this
  refine ⟨fun c => ?_, hthreads, ?_, hfree⟩
  · have hc := hunlocked (.client c)
    change (s.pc c).locked = false at hc
    have hknows := hinv.knows c
    cases hpc : s.pc c with
    | idle => rfl
    | wantLock sync =>
        have := h.client c .lock fun _ => ClientAct.noConfusion
        simp [clientStep, hpc, hfree] at this
    | wait sync g =>
        -- the future that it waits for is that of a collector that has ended
        rw [hpc] at hknows
        have hpending := hready g hknows.1 hknows.2
        have := h.client c .get fun _ => ClientAct.noConfusion
        simp [clientStep, hpc, hpending] at this
    | look _ | getAvail _ _ | join _ _ | start _ _ =>
        -- here it has the lock
        rw [hpc] at hc
        cases hc
  · have hd' := hunlocked .destructor
    change s.destructor.locked = false at hd'
    cases hd : s.destructor with
    | notCalled => exact Or.inl rfl
    | done => exact Or.inr (Or.inl rfl)
    | terminated => exact Or.inr (Or.inr rfl)
    | wantLock | wantLockAgain =>
        have := h.destructor .lock DestructorAct.noConfusion
        simp [destructorStep, hd, hfree] at this
    | wait g =>
        -- it waits for the last future, which is ready as well
        obtain ⟨hg, h1⟩ := hinv.destructor.wait g hd
        have hpending := hready g h1 (Nat.le_of_eq hg)
        have := h.destructor .get DestructorAct.noConfusion
        cases hp : s.promise g with
        | pending => exact absurd hp hpending
        | fulfilled | broken => simp [destructorStep, hd, hp] at this
    | look | join =>
        -- here it has the lock
        rw [hd] at hd'
        cases hd'

/-- A step of the calls and threads that there are. -/
def Internal (settings : Settings) (s' s : State Cid) : Prop :=
  ∃ a : Act Cid, a.isInternal = true ∧ (system settings).step s a = some s'

/-- Without new calls no order of the threads goes on for ever, and it ends only
    when every call, every collector and the destructor have returned: nobody is
    left waiting for the lock, for a future or for `gcThread.join()`. -/
theorem autoGC_returns (h : Reachable settings s) :
    Acc (Internal settings) s ∧ (Stuck settings s → Quiet s) := by
  refine ⟨?_, fun hstuck => hstuck.quiet (inv_reachable h)⟩
  induction hleft : s.left using WellFoundedLT.induction generalizing s with
  | ind left ih =>
      subst hleft
      refine Acc.intro s fun s' hstep => ?_
      obtain ⟨a, ha, hs⟩ := hstep
      exact ih s'.left (left_decreases (inv_reachable h) ha hs) (h.step trivial hs) rfl

theorem autoGC_returns_calls :
    ∃ s, (system Sample.room).run (Sample.calls.take 12) initial = some s ∧
      Acc (Internal Sample.room) s ∧ (Stuck Sample.room s → Quiet s) := by
  have h : ((system Sample.room).run (Sample.calls.take 12) initial).isSome = true := by
    decide +kernel
  obtain ⟨s, hrun⟩ := Option.isSome_iff_exists.mp h
  exact ⟨s, hrun, autoGC_returns (Sample.reachable hrun)⟩

end AutoGC
end NixStore
