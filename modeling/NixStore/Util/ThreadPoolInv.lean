/-
  NixStore.Util.ThreadPoolInv

  What holds in a `ThreadPool` on every schedule.

  Where the items are is a matter of counting the threads (`Ledger`).  From the
  counts follows when the flags can be set (`Flags`): `quit` is set by the
  first exception, by the destructor, or when nothing is pending and nothing
  active, and then nothing can become pending or active any more.  While the
  pool is draining some thread is awake, so the last item that ends is noticed.
  `Owner` is about the thread that called `process()`, and about who joins
  whom.
-/

import NixStore.Util.ThreadPool

namespace NixStore
namespace ThreadPool

open Replace

variable {ι κ ε : Type} {s s' : ThreadPool ι κ ε} {t : Nat} {a b : PoolPc ι κ ε}

-- ============================================================================
-- Section 1: Where the items are
-- ============================================================================

/-- An item that was enqueued is pending, executed, or over. -/
structure Ledger (s : ThreadPool ι κ ε) : Prop where
  items : ∀ q : ι → Bool, s.enqueued.countP q = s.pending.countP q +
    s.threads.countP (PoolPc.runs q) + s.completed.countP q + s.threw.countP fun x => q x.1
  active_eq : s.active = s.threads.countP PoolPc.busy
  thrown : s.exception = none → s.threw.length = s.threads.countP PoolPc.caught
  blamed : ∀ e, s.exception = some e → ∃ w, (w, e) ∈ s.threw
  known : ∀ e, .finished (some e) ∈ s.threads → ∃ w, (w, e) ∈ s.threw

/-- Notified threads are counted as before by everything that does not tell
    whether they wait. -/
theorem countP_wake {p : PoolPc ι κ ε → Bool} (hp : p .waiting = p .woken)
    (l : List (PoolPc ι κ ε)) : (l.map PoolPc.wake).countP p = l.countP p := by
  rw [List.countP_map]
  refine List.countP_congr fun pc _ => ?_
  cases pc <;> simp [PoolPc.wake, hp]

theorem Ledger.notifyAll (h : Ledger s) : Ledger s.notifyAll where
  items := by
    intro q
    have hruns : (s.threads.map PoolPc.wake).countP (PoolPc.runs q) = _ := countP_wake rfl _
    show s.enqueued.countP q = s.pending.countP q +
      (s.threads.map PoolPc.wake).countP (PoolPc.runs q) + s.completed.countP q +
      s.threw.countP fun x => q x.1
    rw [hruns]
    exact h.items q
  active_eq := h.active_eq.trans (countP_wake rfl _).symm
  thrown := fun hnone => (h.thrown hnone).trans (countP_wake rfl _).symm
  blamed := h.blamed
  known := by
    intro e he
    obtain ⟨pc, hpc, heq⟩ := List.mem_map.mp he
    cases pc <;> cases heq
    exact h.known e hpc

/-- A thread goes on outside of items. -/
theorem Ledger.setPc (h : Ledger s) (ha : s.threads[t]? = some a) (hbusy : b.busy = a.busy)
    (hcaught : a.caught = false) (hcaught' : b.caught = false)
    (hruns : ∀ q, b.runs q = a.runs q) : Ledger (s.setPc t b) where
  items := by
    intro q
    have hcount := countP_set ha (PoolPc.runs q) b
    have hitems := h.items q
    rw [hruns q] at hcount
    show s.enqueued.countP q = s.pending.countP q +
      (s.threads.set t b).countP (PoolPc.runs q) + s.completed.countP q +
      s.threw.countP fun x => q x.1
    omega
  active_eq := by
    have hcount := countP_set ha PoolPc.busy b
    have hactive := h.active_eq
    rw [hbusy] at hcount
    show s.active = (s.threads.set t b).countP PoolPc.busy
    omega
  thrown := by
    intro hnone
    have hcount := countP_set ha PoolPc.caught b
    have hthrown := h.thrown hnone
    rw [hcaught, hcaught'] at hcount
    show s.threw.length = (s.threads.set t b).countP PoolPc.caught
    omega
  blamed := h.blamed
  known := by
    intro e he
    rcases List.mem_or_eq_of_mem_set he with hold | hnew
    · exact h.known e hold
    · rw [← hnew] at hcaught'
      cases hcaught'

theorem Ledger.enter (h : Ledger s) : Ledger s.enter where
  items := by
    intro q
    have hitems := h.items q
    show s.enqueued.countP q = s.pending.countP q +
      (s.threads ++ [PoolPc.entering]).countP (PoolPc.runs q) + s.completed.countP q +
      s.threw.countP fun x => q x.1
    rw [List.countP_append]
    simpa [PoolPc.runs] using hitems
  active_eq := by
    show s.active = (s.threads ++ [PoolPc.entering]).countP PoolPc.busy
    rw [List.countP_append]
    simpa [PoolPc.busy] using h.active_eq
  thrown := by
    intro hnone
    show s.threw.length = (s.threads ++ [PoolPc.entering]).countP PoolPc.caught
    rw [List.countP_append]
    simpa [PoolPc.caught] using h.thrown hnone
  blamed := h.blamed
  known := by
    intro e he
    rcases List.mem_append.mp he with hold | hnew
    · exact h.known e hold
    · cases List.mem_singleton.mp hnew

theorem Ledger.push (h : Ledger s) (w : ι) : Ledger (s.push w) := by
  have hpushed : Ledger { s with pending := s.pending ++ [w], enqueued := s.enqueued ++ [w] } := by
    refine { h with items := fun q => ?_ }
    have hitems := h.items q
    show (s.enqueued ++ [w]).countP q = (s.pending ++ [w]).countP q +
      s.threads.countP (PoolPc.runs q) + s.completed.countP q + s.threw.countP fun x => q x.1
    rw [List.countP_append, List.countP_append]
    omega
  unfold ThreadPool.push
  dsimp only
  split
  · exact { hpushed.enter with }
  · exact hpushed

theorem Ledger.record (h : Ledger s) {exc : Option ε} (ha : s.threads[t]? = some (.finished exc)) :
    Ledger (s.record t exc) := by
  have hbusy := countP_set ha PoolPc.busy .woken
  have hactive := h.active_eq
  simp only [PoolPc.busy, if_true, Bool.false_eq_true, if_false] at hbusy
  have hset : ∀ q, (s.threads.set t .woken).countP (PoolPc.runs q) =
      s.threads.countP (PoolPc.runs q) := fun q => countP_set ha (PoolPc.runs q) .woken
  have hknown : ∀ e, .finished (some e) ∈ s.threads.set t (.woken : PoolPc ι κ ε) →
      ∃ w, (w, e) ∈ s.threw := by
    intro e he
    rcases List.mem_or_eq_of_mem_set he with hold | hnew
    · exact h.known e hold
    · cases hnew
  have hitems : ∀ q : ι → Bool, s.enqueued.countP q = s.pending.countP q +
      (s.threads.set t .woken).countP (PoolPc.runs q) + s.completed.countP q +
      s.threw.countP fun x => q x.1 := by
    intro q
    rw [hset q]
    exact h.items q
  have hactive' : s.active - 1 = (s.threads.set t .woken).countP PoolPc.busy := by omega
  have hcaught := countP_set ha PoolPc.caught .woken
  cases exc with
  | none =>
      rw [record_of_none]
      refine ⟨hitems, hactive', fun hnone => ?_, h.blamed, hknown⟩
      exact (h.thrown hnone).trans hcaught.symm
  | some e =>
      cases hexc : s.exception with
      | some e' =>
          rw [record_of_later hexc]
          refine ⟨hitems, hactive', fun hnone => ?_, h.blamed, hknown⟩
          rw [hexc] at hnone
          cases hnone
      | none =>
          rw [record_of_first hexc]
          have hwhole : Ledger { s with
              active := s.active - 1
              exception := some e
              quit := true
              threads := s.threads.set t .woken } := by
            refine ⟨hitems, hactive', fun hnone => (by cases hnone), ?_, hknown⟩
            intro e' he'
            cases he'
            exact h.known e (List.mem_of_getElem? ha)
          exact hwhole.notifyAll

/-- An item is taken from the queue. -/
theorem Ledger.take (h : Ledger s) {w : ι} {pending : List ι} {point : κ}
    (ha : s.threads[t]? = some a) (hbusy : a.busy = false) (hpending : s.pending = w :: pending) :
    Ledger { s with
      pending
      active := s.active + 1
      threads := s.threads.set t (.running w point) } := by
  have hcaught : a.caught = false := by
    cases a <;> first | rfl | cases hbusy
  have hruns : ∀ q, a.runs q = false := by
    intro q
    cases a <;> first | rfl | cases hbusy
  refine ⟨fun q => ?_, ?_, fun hnone => ?_, h.blamed, fun e he => ?_⟩
  · have hcount := countP_set ha (PoolPc.runs q) (.running w point)
    have hitems := h.items q
    rw [hpending, List.countP_cons] at hitems
    rw [hruns q, show (PoolPc.running w point).runs q = q w from rfl] at hcount
    show s.enqueued.countP q = pending.countP q +
      (s.threads.set t (.running w point)).countP (PoolPc.runs q) + s.completed.countP q +
      s.threw.countP fun x => q x.1
    simp only [Bool.false_eq_true, if_false] at hcount
    omega
  · have hcount := countP_set ha PoolPc.busy (.running w point)
    have hactive := h.active_eq
    rw [hbusy] at hcount
    simp only [PoolPc.busy, Bool.false_eq_true, if_false, if_true] at hcount
    show s.active + 1 = (s.threads.set t (.running w point)).countP PoolPc.busy
    omega
  · have hcount := countP_set ha PoolPc.caught (.running w point)
    have hthrown := h.thrown hnone
    rw [hcaught] at hcount
    simp only [PoolPc.caught, Bool.false_eq_true, if_false] at hcount
    show s.threw.length = (s.threads.set t (.running w point)).countP PoolPc.caught
    omega
  · rcases List.mem_or_eq_of_mem_set he with hold | hnew
    · exact h.known e hold
    · cases hnew

theorem Ledger.finish (h : Ledger s) {w : ι} {point : κ}
    (ha : s.threads[t]? = some (.running w point)) :
    Ledger { s.setPc t (.finished none) with completed := s.completed ++ [w] } := by
  refine ⟨fun q => ?_, ?_, fun hnone => ?_, h.blamed, fun e he => ?_⟩
  · have hcount : (s.threads.set t (.finished none)).countP (PoolPc.runs q) +
        (if q w then 1 else 0) = s.threads.countP (PoolPc.runs q) :=
      countP_set ha (PoolPc.runs q) (.finished none)
    have hitems := h.items q
    show s.enqueued.countP q = s.pending.countP q +
      (s.threads.set t (.finished none)).countP (PoolPc.runs q) +
      (s.completed ++ [w]).countP q + s.threw.countP fun x => q x.1
    rw [List.countP_append, List.countP_singleton]
    omega
  · have hcount := countP_set ha PoolPc.busy (.finished none)
    simp only [PoolPc.busy, if_true] at hcount
    exact h.active_eq.trans (Nat.add_right_cancel hcount).symm
  · have hcount := countP_set ha PoolPc.caught (.finished none)
    exact (h.thrown hnone).trans (Nat.add_right_cancel hcount).symm
  · rcases List.mem_or_eq_of_mem_set he with hold | hnew
    · exact h.known e hold
    · cases hnew

theorem Ledger.throw (h : Ledger s) {w : ι} {point : κ} {e : ε}
    (ha : s.threads[t]? = some (.running w point)) :
    Ledger { s.setPc t (.finished (some e)) with threw := s.threw ++ [(w, e)] } := by
  refine ⟨fun q => ?_, ?_, fun hnone => ?_, fun e' he' => ?_, fun e' he' => ?_⟩
  · have hcount : (s.threads.set t (.finished (some e))).countP (PoolPc.runs q) +
        (if q w then 1 else 0) = s.threads.countP (PoolPc.runs q) :=
      countP_set ha (PoolPc.runs q) (.finished (some e))
    have hthrew : (s.threw ++ [(w, e)]).countP (fun x => q x.1) =
        s.threw.countP (fun x => q x.1) + if q w then 1 else 0 := by
      rw [List.countP_append, List.countP_singleton]
    have hitems := h.items q
    show s.enqueued.countP q = s.pending.countP q +
      (s.threads.set t (.finished (some e))).countP (PoolPc.runs q) + s.completed.countP q +
      (s.threw ++ [(w, e)]).countP fun x => q x.1
    omega
  · have hcount := countP_set ha PoolPc.busy (.finished (some e))
    simp only [PoolPc.busy, if_true] at hcount
    exact h.active_eq.trans (Nat.add_right_cancel hcount).symm
  · have hcount := countP_set ha PoolPc.caught (.finished (some e))
    have hthrown := h.thrown hnone
    simp only [PoolPc.caught, Bool.false_eq_true, if_false, if_true] at hcount
    show (s.threw ++ [(w, e)]).length = (s.threads.set t (.finished (some e))).countP PoolPc.caught
    rw [List.length_append, List.length_singleton]
    omega
  · obtain ⟨w', hw'⟩ := h.blamed e' he'
    exact ⟨w', List.mem_append_left _ hw'⟩
  · rcases List.mem_or_eq_of_mem_set he' with hold | hnew
    · obtain ⟨w', hw'⟩ := h.known e' hold
      exact ⟨w', List.mem_append_left _ hw'⟩
    · cases hnew
      exact ⟨w, List.mem_append_right _ (List.mem_singleton.mpr rfl)⟩

theorem Ledger.notifyOne {woken : Option Nat} (h : Ledger s)
    (hnotify : ThreadPool.notifyOne woken s = some s') : Ledger s' := by
  rcases notifyOne_cases hnotify with ⟨t, ha, rfl⟩ | ⟨-, rfl⟩
  · exact h.setPc ha rfl rfl rfl fun _ => rfl
  · exact h

/-- A thread in `doWork` that is not counted in `active`, and has the lock. -/
def Looks (s : ThreadPool ι κ ε) (t : Nat) : Prop :=
  s.threads[t]? = some .entering ∨ s.threads[t]? = some .woken

theorem Looks.elim {P : Prop} (h : Looks s t)
    (hpc : ∀ pc : PoolPc ι κ ε, s.threads[t]? = some pc → pc.busy = false → pc.caught = false →
      pc.awake = true → pc.isWaiting = false → pc.isReturned = false → (∀ q, pc.runs q = false) →
      P) : P := by
  rcases h with h | h
  · exact hpc _ h rfl rfl rfl rfl rfl fun _ => rfl
  · exact hpc _ h rfl rfl rfl rfl rfl fun _ => rfl

/-- A thread that has counted its item off looks for the next one. -/
theorem looks_record {exc : Option ε} (ha : s.threads[t]? = some (.finished exc)) :
    Looks (s.record t exc) t := by
  have hlt := (List.getElem?_eq_some_iff.mp ha).1
  have hset : (s.threads.set t .woken)[t]? = some (.woken : PoolPc ι κ ε) := by
    rw [List.getElem?_set_self hlt]
  cases exc with
  | none => exact Or.inr hset
  | some e =>
      cases hexc : s.exception with
      | some e' =>
          rw [record_of_later hexc]
          exact Or.inr hset
      | none =>
          rw [record_of_first hexc]
          refine Or.inr ?_
          rw [List.getElem?_map, hset]
          rfl

theorem Ledger.await [Inhabited κ] (h : Ledger s) (hlooks : Looks s t) : Ledger (s.await t) := by
  refine hlooks.elim fun a ha hbusy hcaught _ _ _ hruns => ?_
  rcases await_cases t s with ⟨-, heq⟩ | ⟨-, w, pending, hpending, heq⟩ | ⟨-, -, -, -, heq⟩ |
    ⟨-, -, -, heq⟩
  · rw [heq]
    exact h.setPc ha hbusy.symm hcaught rfl fun q => (hruns q).symm
  · rw [heq]
    exact h.take ha hbusy hpending
  · rw [heq]
    have hset := h.setPc (b := .returned) ha hbusy.symm hcaught rfl fun q => (hruns q).symm
    have hquit : Ledger { s with quit := true, threads := s.threads.set t .returned } :=
      { hset with }
    exact hquit.notifyAll
  · rw [heq]
    exact h.setPc ha hbusy.symm hcaught rfl fun q => (hruns q).symm

-- ============================================================================
-- Section 2: When the flags are set
-- ============================================================================

/-- Why the pool quits, and that it notices when it has to. -/
structure Flags (s : ThreadPool ι κ ε) : Prop where
  quits : s.exception ≠ none → s.quit = true
  why : s.quit = true →
    s.exception ≠ none ∨ (s.draining = true ∧ s.pending = [] ∧ s.active = 0) ∨
      s.caller.destroying = true
  roused : s.quit = true →
    s.threads.countP PoolPc.isWaiting = 0 ∨ s.caller.toNotify = true
  lively : s.draining = true → s.quit = false → 0 < s.threads.countP PoolPc.awake
  returns : s.quit = false → s.threads.countP PoolPc.isReturned = 0
  calm : s.result = some (.ok ()) →
    s.exception = none ∧ s.quit = true ∧ s.pending = [] ∧ s.active = 0

theorem countP_isWaiting_wake (l : List (PoolPc ι κ ε)) :
    (l.map PoolPc.wake).countP PoolPc.isWaiting = 0 := by
  refine List.countP_eq_zero.mpr fun pc hpc => ?_
  obtain ⟨pc', -, rfl⟩ := List.mem_map.mp hpc
  cases pc' <;> exact Bool.false_ne_true

theorem countP_awake_wake (l : List (PoolPc ι κ ε)) :
    l.countP PoolPc.awake ≤ (l.map PoolPc.wake).countP PoolPc.awake := by
  rw [List.countP_map]
  refine List.countP_mono_left fun pc _ hpc => ?_
  cases pc <;> first | rfl | cases hpc

theorem Flags.notifyAll (h : Flags s) : Flags s.notifyAll where
  quits := h.quits
  why := h.why
  roused := fun _ => Or.inl (countP_isWaiting_wake _)
  lively := fun hdraining hquit =>
    Nat.lt_of_lt_of_le (h.lively hdraining hquit) (countP_awake_wake _)
  returns := fun hquit => (countP_wake rfl _).trans (h.returns hquit)
  calm := h.calm

/-- A thread goes on, and is awake if the pool depends on it. -/
theorem Flags.setPc (h : Flags s) (ha : s.threads[t]? = some a)
    (hwaiting : b.isWaiting = true → s.quit = false)
    (hawake : s.draining = true → s.quit = false → 0 < (s.threads.set t b).countP PoolPc.awake)
    (hreturned : b.isReturned = true → s.quit = true) : Flags (s.setPc t b) where
  quits := h.quits
  why := h.why
  roused := by
    intro hquit
    refine (h.roused hquit).imp_left fun hnone => ?_
    have hcount := countP_set ha PoolPc.isWaiting b
    have hb : ¬ b.isWaiting = true := fun hb => by
      have hrunning := hwaiting hb
      rw [show s.quit = true from hquit] at hrunning
      cases hrunning
    rw [if_neg hb] at hcount
    show (s.threads.set t b).countP PoolPc.isWaiting = 0
    omega
  lively := hawake
  returns := by
    intro hquit
    have hnone := h.returns hquit
    have hcount := countP_set ha PoolPc.isReturned b
    have hb : ¬ b.isReturned = true := fun hb => by
      have hquits := hreturned hb
      rw [show s.quit = false from hquit] at hquits
      cases hquits
    rw [if_neg hb] at hcount
    show (s.threads.set t b).countP PoolPc.isReturned = 0
    omega
  calm := h.calm

theorem awake_set (ha : s.threads[t]? = some a) (hb : b.awake = true) :
    0 < (s.threads.set t b).countP PoolPc.awake := by
  have hlt := (List.getElem?_eq_some_iff.mp ha).1
  exact countP_pos_of_getElem? (List.getElem?_set_self hlt) hb

/-- The same for a thread that neither waits nor has returned. -/
theorem Flags.setAwake (h : Flags s) (ha : s.threads[t]? = some a) (hb : b.awake = true) :
    Flags (s.setPc t b) := by
  have hkind : b.isWaiting = false ∧ b.isReturned = false := by
    cases b <;> first | exact ⟨rfl, rfl⟩ | cases hb
  refine h.setPc ha (fun hwaiting => ?_) (fun _ _ => awake_set ha hb) fun hreturned => ?_
  · rw [hkind.1] at hwaiting
    cases hwaiting
  · rw [hkind.2] at hreturned
    cases hreturned

/-- Before the pool quits, most of it is about threads. -/
theorem Flags.of_running (hquit : s.quit = false) (hexc : s.exception = none)
    (hresult : s.result ≠ some (.ok ()))
    (hlively : s.draining = true → 0 < s.threads.countP PoolPc.awake)
    (hreturns : s.threads.countP PoolPc.isReturned = 0) : Flags s := by
  have habsurd : ∀ {P : Prop}, s.quit = true → P := by
    intro P h
    rw [hquit] at h
    cases h
  exact ⟨fun hne => absurd hexc hne, habsurd, habsurd, fun hdraining _ => hlively hdraining,
    fun _ => hreturns, fun hok => absurd hok hresult⟩

theorem Flags.exception_eq (h : Flags s) (hquit : s.quit = false) : s.exception = none := by
  by_contra hne
  rw [h.quits hne] at hquit
  cases hquit

theorem Flags.not_calm (h : Flags s) (hquit : s.quit = false) : s.result ≠ some (.ok ()) := by
  intro hok
  rw [(h.calm hok).2.1] at hquit
  cases hquit

theorem Flags.enter (h : Flags s) (hquit : s.quit = false) : Flags s.enter := by
  refine .of_running hquit (h.exception_eq hquit) (h.not_calm hquit) (fun _ => ?_) ?_
  · show 0 < (s.threads ++ [PoolPc.entering]).countP PoolPc.awake
    rw [List.countP_append]
    exact Nat.succ_pos _
  · show (s.threads ++ [PoolPc.entering]).countP PoolPc.isReturned = 0
    rw [List.countP_append, h.returns hquit]
    rfl

theorem Flags.push (h : Flags s) (hquit : s.quit = false) (w : ι) : Flags (s.push w) := by
  have hpushed : Flags { s with pending := s.pending ++ [w], enqueued := s.enqueued ++ [w] } :=
    .of_running hquit (h.exception_eq hquit) (h.not_calm hquit)
      (fun hdraining => h.lively hdraining hquit) (h.returns hquit)
  unfold ThreadPool.push
  dsimp only
  split
  · exact { hpushed.enter hquit with }
  · exact hpushed

theorem Flags.notifyOne {woken : Option Nat} (h : Flags s)
    (hnotify : ThreadPool.notifyOne woken s = some s') : Flags s' := by
  rcases notifyOne_cases hnotify with ⟨t, ha, rfl⟩ | ⟨-, rfl⟩
  · exact h.setAwake ha rfl
  · exact h

/-- While an item has not been counted off, the pool is active. -/
theorem Ledger.active_pos (h : Ledger s) (ha : s.threads[t]? = some a) (hbusy : a.busy = true) :
    0 < s.active := by
  rw [h.active_eq]
  exact countP_pos_of_getElem? ha hbusy

theorem Flags.record (h : Flags s) (hledger : Ledger s) {exc : Option ε}
    (ha : s.threads[t]? = some (.finished exc)) : Flags (s.record t exc) := by
  have hpos := hledger.active_pos ha rfl
  have hcalm : s.result ≠ some (.ok ()) := by
    intro hok
    have hzero := (h.calm hok).2.2.2
    omega
  have hplain : Flags { s with active := s.active - 1, threads := s.threads.set t .woken } := by
    refine { h.setAwake ha (b := .woken) rfl with why := fun hquit => ?_, calm := fun hok => ?_ }
    · refine (h.why hquit).imp_right (Or.imp_left fun hnone => ⟨hnone.1, hnone.2.1, ?_⟩)
      show s.active - 1 = 0
      omega
    · exact absurd hok hcalm
  cases exc with
  | none => exact hplain
  | some e =>
      cases hexc : s.exception with
      | some e' =>
          rw [record_of_later hexc]
          exact hplain
      | none =>
          rw [record_of_first hexc]
          have hsome : ∀ {P : Prop}, (some e : Option ε) = none → P := by
            intro P hnone
            cases hnone
          refine ⟨fun _ => rfl, fun _ => Or.inl hsome, fun _ => Or.inl (countP_isWaiting_wake _),
            fun _ hquit => (by cases hquit), fun hquit => (by cases hquit),
            fun hok => absurd hok hcalm⟩

theorem busy_le_awake (l : List (PoolPc ι κ ε)) :
    l.countP PoolPc.busy ≤ l.countP PoolPc.awake := by
  refine List.countP_mono_left fun pc _ hpc => ?_
  cases pc <;> first | rfl | cases hpc

theorem Flags.await [Inhabited κ] (h : Flags s) (hledger : Ledger s) (hlooks : Looks s t) :
    Flags (s.await t) := by
  refine hlooks.elim fun a ha hbusy _ _ _ hreturned _ => ?_
  rcases await_cases t s with ⟨hquit, heq⟩ | ⟨hquit, w, pending, hpending, heq⟩ |
    ⟨hquit, hpending, hactive, hdraining, heq⟩ | ⟨hquit, hpending, hlast, heq⟩
  · rw [heq]
    refine h.setPc ha (fun hwaiting => (by cases hwaiting)) (fun _ hrunning => ?_) fun _ => hquit
    rw [hquit] at hrunning
    cases hrunning
  · rw [heq]
    refine .of_running hquit (h.exception_eq hquit) (h.not_calm hquit)
      (fun _ => awake_set ha rfl) ?_
    have hcount := countP_set ha PoolPc.isReturned (.running w default)
    rw [h.returns hquit] at hcount
    exact (Nat.add_eq_zero_iff.mp (hcount.trans (Nat.zero_add _))).1
  · rw [heq]
    refine ⟨fun _ => rfl, fun _ => Or.inr (Or.inl ⟨hdraining, hpending, hactive⟩),
      fun _ => Or.inl (countP_isWaiting_wake _), fun _ hrunning => (by cases hrunning),
      fun hrunning => (by cases hrunning), fun hok => absurd hok (h.not_calm hquit)⟩
  · rw [heq]
    refine h.setPc ha (fun _ => hquit) (fun hdraining _ => ?_) fun hreturn => (by cases hreturn)
    -- the pool drains, so some other thread has an item
    have hcount := countP_set ha PoolPc.busy .waiting
    rw [hbusy, ← hledger.active_eq] at hcount
    simp only [PoolPc.busy, Bool.false_eq_true, if_false, Nat.add_zero] at hcount
    refine Nat.lt_of_lt_of_le ?_ (busy_le_awake _)
    rw [hcount]
    exact Nat.pos_of_ne_zero fun hzero => hlast ⟨hzero, hdraining⟩

/-- The owner goes on. -/
theorem Flags.caller (h : Flags s) (caller : PoolCaller ε) (result : Option (Except ε Unit))
    (hdestroying : s.caller.destroying = true → caller.destroying = true)
    (hnotify : s.caller.toNotify = true → caller.toNotify = true)
    (hcalm : result = some (.ok ()) →
      s.exception = none ∧ s.quit = true ∧ s.pending = [] ∧ s.active = 0) :
    Flags { s with caller := caller, result := result } where
  quits := h.quits
  why := fun hquit => (h.why hquit).imp_right (Or.imp_right hdestroying)
  roused := fun hquit => (h.roused hquit).imp_right hnotify
  lively := h.lively
  returns := h.returns
  calm := hcalm

-- ============================================================================
-- Section 3: The owner and the workers
-- ============================================================================

/-- Where `process()` is, and which threads are still to be joined. -/
structure Owner (s : ThreadPool ι κ ε) : Prop where
  idle : s.caller = .idle → s.draining = false ∧ s.result = none
  working : ∀ t, s.caller = .working t →
    s.draining = true ∧ s.result = none ∧ t < s.threads.length
  processing : s.draining = true → s.result = none → s.caller.inProcess = true
  failing : ∀ e, s.caller.exc = some e ∨ s.result = some (.error e) → s.exception = some e
  ended : ∀ e, s.result = some (.error e) → s.quit = true ∧ ∀ pc ∈ s.threads, pc = .returned
  joined : ∀ i pc, s.threads[i]? = some pc →
    pc = .returned ∨ i ∈ s.workers ∨ i ∈ s.caller.toJoin ∨ s.caller = .working i
  halted : s.caller.halting = true → s.quit = true ∧ s.workers = [] ∧ s.caller.toJoin ≠ []
  valid : ∀ i, i ∈ s.workers ∨ i ∈ s.caller.toJoin → i < s.threads.length

/-- Threads that are in `doWork` go on, and flags are set. -/
theorem Owner.change (h : Owner s) (hcaller : s'.caller = s.caller) (hresult : s'.result = s.result)
    (hworkers : s'.workers = s.workers) (hdraining : s'.draining = s.draining)
    (hexc : ∀ e, s.exception = some e → s'.exception = some e)
    (hquit : s.quit = true → s'.quit = true) (hlen : s'.threads.length = s.threads.length)
    (hreturned : ∀ i : Nat, s.threads[i]? = some .returned → s'.threads[i]? = some .returned) :
    Owner s' where
  idle := by
    rw [hcaller, hdraining, hresult]
    exact h.idle
  working := by
    rw [hcaller, hdraining, hresult, hlen]
    exact h.working
  processing := by
    rw [hcaller, hdraining, hresult]
    exact h.processing
  failing := by
    rw [hcaller, hresult]
    exact fun e he => hexc e (h.failing e he)
  ended := by
    rw [hresult]
    intro e he
    obtain ⟨hquits, hall⟩ := h.ended e he
    refine ⟨hquit hquits, fun pc hpc => ?_⟩
    obtain ⟨i, hi⟩ := List.mem_iff_getElem?.mp hpc
    have hlt := (List.getElem?_eq_some_iff.mp hi).1
    rw [hlen] at hlt
    have hold := List.getElem?_eq_getElem hlt
    rw [hall _ (List.getElem_mem hlt)] at hold
    rw [hreturned i hold] at hi
    exact (Option.some.inj hi).symm
  joined := by
    rw [hcaller, hworkers]
    intro i pc hi
    have hlt := (List.getElem?_eq_some_iff.mp hi).1
    rw [hlen] at hlt
    rcases h.joined i _ (List.getElem?_eq_getElem hlt) with hold | hrest
    · have hget := List.getElem?_eq_getElem hlt
      rw [hold] at hget
      rw [hreturned i hget] at hi
      exact Or.inl (Option.some.inj hi).symm
    · exact Or.inr hrest
  halted := by
    rw [hcaller, hworkers]
    exact fun hhalting => (h.halted hhalting).imp_left hquit
  valid := by
    rw [hcaller, hworkers, hlen]
    exact h.valid

theorem Owner.notifyAll (h : Owner s) : Owner s.notifyAll := by
  refine h.change rfl rfl rfl rfl (fun _ he => he) id (List.length_map _) fun i hi => ?_
  show (s.threads.map PoolPc.wake)[i]? = some .returned
  rw [List.getElem?_map, hi]
  rfl

/-- Only the thread itself is changed, and it had not returned. -/
theorem getElem?_set_returned (ha : s.threads[t]? = some a) (hreturned : a.isReturned = false)
    {i : Nat} (hi : s.threads[i]? = some .returned) :
    (s.threads.set t b)[i]? = some .returned := by
  have hne : t ≠ i := by
    rintro rfl
    rw [hi] at ha
    cases ha
    cases hreturned
  rw [List.getElem?_set_ne hne, hi]

theorem Owner.setPc (h : Owner s) (ha : s.threads[t]? = some a) (hreturned : a.isReturned = false) :
    Owner (s.setPc t b) :=
  h.change rfl rfl rfl rfl (fun _ he => he) id List.length_set
    fun _ hi => getElem?_set_returned ha hreturned hi

theorem Owner.notifyOne {woken : Option Nat} (h : Owner s)
    (hnotify : ThreadPool.notifyOne woken s = some s') : Owner s' := by
  rcases notifyOne_cases hnotify with ⟨t, ha, rfl⟩ | ⟨-, rfl⟩
  · exact h.setPc ha rfl
  · exact h

theorem Owner.record (h : Owner s) {exc : Option ε} (ha : s.threads[t]? = some (.finished exc)) :
    Owner (s.record t exc) := by
  have hplain : Owner { s with active := s.active - 1, threads := s.threads.set t .woken } :=
    h.change rfl rfl rfl rfl (fun _ he => he) id List.length_set
      fun _ hi => getElem?_set_returned ha rfl hi
  cases exc with
  | none => exact hplain
  | some e =>
      cases hexc : s.exception with
      | some e' =>
          rw [record_of_later hexc]
          exact hplain
      | none =>
          rw [record_of_first hexc]
          refine hplain.notifyAll.change rfl rfl rfl rfl (fun e' he' => ?_) (fun _ => rfl) rfl
            fun _ hi => hi
          rw [show s.exception = some e' from he'] at hexc
          cases hexc

theorem Owner.await [Inhabited κ] (h : Owner s) (hlooks : Looks s t) : Owner (s.await t) := by
  refine hlooks.elim fun a ha _ _ _ _ hreturned _ => ?_
  rcases await_cases t s with ⟨-, heq⟩ | ⟨-, w, pending, -, heq⟩ | ⟨-, -, -, -, heq⟩ |
    ⟨-, -, -, heq⟩
  · rw [heq]
    exact h.setPc ha hreturned
  · rw [heq]
    exact h.change rfl rfl rfl rfl (fun _ he => he) id List.length_set
      fun _ hi => getElem?_set_returned ha hreturned hi
  · rw [heq]
    have hset : Owner (s.setPc t .returned) := h.setPc ha hreturned
    exact hset.notifyAll.change rfl rfl rfl rfl (fun _ he => he) (fun _ => rfl) rfl fun _ hi => hi
  · rw [heq]
    exact h.setPc ha hreturned

/-- A pool that does not quit takes an item, and may start a worker for it. -/
theorem Owner.push (h : Owner s) (hquit : s.quit = false) (w : ι) : Owner (s.push w) := by
  unfold ThreadPool.push
  dsimp only
  split
  · refine ⟨h.idle, fun t ht => ?_, h.processing, h.failing, fun e he => ?_, fun i pc hi => ?_,
      fun hhalting => ?_, fun i hi => ?_⟩
    · obtain ⟨hdraining, hresult, hlt⟩ := h.working t ht
      refine ⟨hdraining, hresult, ?_⟩
      show t < (s.threads ++ [PoolPc.entering]).length
      rw [List.length_append]
      omega
    · rw [(h.ended e he).1] at hquit
      cases hquit
    · have hget : (s.threads ++ [PoolPc.entering])[i]? = some pc := hi
      rcases Nat.lt_or_ge i s.threads.length with hlt | hge
      · rw [List.getElem?_append_left hlt] at hget
        refine (h.joined i pc hget).imp_right (Or.imp_left fun hmem => ?_)
        exact List.mem_append_left _ hmem
      · rw [List.getElem?_append_right hge] at hget
        have hlt := (List.getElem?_eq_some_iff.mp hget).1
        rw [List.length_singleton] at hlt
        refine Or.inr (Or.inl (List.mem_append_right _ (List.mem_singleton.mpr ?_)))
        omega
    · have hquits : s.quit = true := (h.halted hhalting).1
      rw [hquits] at hquit
      cases hquit
    · show i < (s.threads ++ [PoolPc.entering]).length
      rw [List.length_append, List.length_singleton]
      rcases hi with hi | hi
      · rcases List.mem_append.mp hi with hold | hnew
        · exact Nat.lt_succ_of_lt (h.valid i (Or.inl hold))
        · rw [List.mem_singleton.mp hnew]
          exact Nat.lt_succ_self _
      · exact Nat.lt_succ_of_lt (h.valid i (Or.inr hi))
  · exact { h with }

/-- Nobody is left to be joined. -/
theorem Owner.all_returned (h : Owner s) (hworkers : s.workers = [])
    (hjoin : s.caller.toJoin = []) (hworking : ∀ t, s.caller ≠ .working t) :
    ∀ pc ∈ s.threads, pc = .returned := by
  intro pc hpc
  obtain ⟨i, hi⟩ := List.mem_iff_getElem?.mp hpc
  rcases h.joined i pc hi with hreturned | hmem | hmem | hcaller
  · exact hreturned
  · rw [hworkers] at hmem
    cases hmem
  · rw [hjoin] at hmem
    cases hmem
  · exact absurd hcaller (hworking i)

/-- Everybody has been joined. -/
theorem Owner.stopped {exc : Option ε} (hquit : s.quit = true) (hworkers : s.workers = [])
    (hall : ∀ pc ∈ s.threads, pc = .returned) (hexc : ∀ e, exc = some e → s.exception = some e)
    (hfailing : ∀ e, s.result = some (.error e) → s.exception = some e)
    (hprocessing : exc = none → s.draining = true → s.result ≠ none) :
    Owner (s.stopped exc) := by
  have hreturned : ∀ (i : Nat) pc, s.threads[i]? = some pc → pc = .returned :=
    fun i pc hi => hall pc (List.mem_of_getElem? hi)
  cases exc with
  | some e =>
      refine ⟨fun hidle => (by cases hidle), fun t ht => (by cases ht),
        fun _ hnone => (by cases hnone), fun e' he' => ?_, fun _ _ => ⟨hquit, hall⟩, fun i pc hi => Or.inl (hreturned i pc hi),
        fun hhalting => (by cases hhalting), fun i hi => ?_⟩
      · rcases he' with hcaller | hresult
        · cases hcaller
        · cases hresult
          exact hexc e rfl
      · rcases hi with hi | hi
        · have hmem : i ∈ s.workers := hi
          rw [hworkers] at hmem
          cases hmem
        · cases hi
  | none =>
      refine ⟨fun hidle => (by cases hidle), fun t ht => (by cases ht),
        fun hdraining hnone => absurd hnone (hprocessing rfl hdraining), fun e' he' => ?_,
        fun _ _ => ⟨hquit, hall⟩, fun i pc hi => Or.inl (hreturned i pc hi),
        fun hhalting => (by cases hhalting), fun i hi => ?_⟩
      · rcases he' with hcaller | hresult
        · cases hcaller
        · exact hfailing e' hresult
      · rcases hi with hi | hi
        · have hmem : i ∈ s.workers := hi
          rw [hworkers] at hmem
          cases hmem
        · cases hi

theorem Flags.stopped {exc : Option ε} (h : Flags s)
    (hexc : s.caller.destroying = true → exc = none) (hnotify : s.caller.toNotify = false) :
    Flags (s.stopped exc) := by
  have hnever : ∀ {P : Prop}, s.caller.toNotify = true → P := by
    intro P htrue
    rw [hnotify] at htrue
    cases htrue
  cases exc with
  | some e =>
      refine h.caller _ _ (fun hdestroying => ?_) hnever fun hok => (by cases hok)
      cases hexc hdestroying
  | none => exact h.caller _ _ (fun _ => rfl) hnever h.calm

/-- What holds on every schedule. -/
structure Inv (s : ThreadPool ι κ ε) : Prop where
  ledger : Ledger s
  flags : Flags s
  owner : Owner s

theorem inv_new (maxThreads hardwareConcurrency : Nat) :
    Inv (new maxThreads hardwareConcurrency : ThreadPool ι κ ε) where
  ledger := ⟨fun _ => rfl, rfl, fun _ => rfl, fun _ he => (by cases he), fun _ he => (by cases he)⟩
  flags := .of_running rfl rfl (fun hok => (by cases hok)) (fun h => (by cases h)) rfl
  owner := ⟨fun _ => ⟨rfl, rfl⟩, fun _ ht => (by cases ht), fun h => (by cases h),
    fun e he => (by rcases he with he | he <;> cases he), fun _ he => (by cases he),
    fun i pc hi => (by cases hi), fun h => (by cases h),
    fun i hi => (by rcases hi with hi | hi <;> cases hi)⟩

/-- `process()` is called, perhaps after an item has thrown. -/
theorem Inv.process (h : Inv s) (hidle : s.caller = .idle) :
    Inv { s.enter with draining := true, caller := .working s.threads.length } := by
  have hcount : ∀ p : PoolPc ι κ ε → Bool, p .entering = false →
      (s.threads ++ [PoolPc.entering]).countP p = s.threads.countP p := by
    intro p hp
    rw [List.countP_append, List.countP_singleton, hp]
    rfl
  obtain ⟨hdraining, hresult⟩ := h.owner.idle hidle
  refine ⟨{ h.ledger.enter with }, ⟨h.flags.quits, fun hquit => ?_, fun hquit => ?_, fun _ _ => ?_,
    fun hquit => ?_, h.flags.calm⟩, ⟨fun hcaller => (by cases hcaller), fun t ht => ?_,
    fun _ _ => rfl, fun e he => ?_, fun e he => ?_, fun i pc hi => ?_,
    fun hhalting => (by cases hhalting), fun i hi => ?_⟩⟩
  · refine (h.flags.why hquit).imp_right
      (Or.imp (fun hlast => ⟨rfl, hlast.2⟩) fun hdestroying => ?_)
    rw [hidle] at hdestroying
    cases hdestroying
  · refine (h.flags.roused hquit).imp (fun hnone => ?_) fun hnotify => ?_
    · exact (hcount _ rfl).trans hnone
    · rw [hidle] at hnotify
      cases hnotify
  · show 0 < (s.threads ++ [PoolPc.entering]).countP PoolPc.awake
    rw [List.countP_append]
    exact Nat.succ_pos _
  · exact (hcount _ rfl).trans (h.flags.returns hquit)
  · cases ht
    refine ⟨rfl, hresult, ?_⟩
    show s.threads.length < (s.threads ++ [PoolPc.entering]).length
    rw [List.length_append]
    exact Nat.lt_succ_self _
  · rcases he with he | he
    · cases he
    · exact h.owner.failing e (Or.inr he)
  · rw [show s.result = some (.error e) from he] at hresult
    cases hresult
  · have hget : (s.threads ++ [PoolPc.entering])[i]? = some pc := hi
    rcases Nat.lt_or_ge i s.threads.length with hlt | hge
    · rw [List.getElem?_append_left hlt] at hget
      rcases h.owner.joined i pc hget with hreturned | hmem | hmem | hcaller
      · exact Or.inl hreturned
      · exact Or.inr (Or.inl hmem)
      · rw [hidle] at hmem
        cases hmem
      · rw [hidle] at hcaller
        cases hcaller
    · rw [List.getElem?_append_right hge] at hget
      have hlt := (List.getElem?_eq_some_iff.mp hget).1
      rw [List.length_singleton] at hlt
      have hlast : i = s.threads.length := by omega
      exact Or.inr (Or.inr (Or.inr (congrArg _ hlast.symm)))
  · show i < (s.threads ++ [PoolPc.entering]).length
    rw [List.length_append, List.length_singleton]
    rcases hi with hi | hi
    · exact Nat.lt_succ_of_lt (h.owner.valid i (Or.inl hi))
    · cases hi

/-- `process()` has seen that there is an exception, or that there is none. -/
theorem Inv.check (h : Inv s) (hcaller : s.caller = .working t)
    (hreturned : s.threads[t]? = some .returned) (hquit : s.quit = true) :
    (∀ e, s.exception = some e → Inv { s with caller := .stopping (some e) }) ∧
    (s.exception = none → Inv { s with caller := .ended, result := some (.ok ()) }) := by
  obtain ⟨hdraining, hresult, hlt⟩ := h.owner.working t hcaller
  have hdestroying : ∀ {P : Prop}, s.caller.destroying = true → P := by
    intro P htrue
    rw [hcaller] at htrue
    cases htrue
  have hnotify : ∀ {P : Prop}, s.caller.toNotify = true → P := by
    intro P htrue
    rw [hcaller] at htrue
    cases htrue
  have hjoined : ∀ (i : Nat) pc, s.threads[i]? = some pc → pc = .returned ∨ i ∈ s.workers := by
    intro i pc hi
    rcases h.owner.joined i pc hi with hpc | hmem | hmem | hworking
    · exact Or.inl hpc
    · exact Or.inr hmem
    · rw [hcaller] at hmem
      cases hmem
    · rw [hcaller] at hworking
      cases hworking
      rw [hreturned] at hi
      exact Or.inl (Option.some.inj hi).symm
  constructor
  · intro e he
    refine ⟨{ h.ledger with }, h.flags.caller _ _ hdestroying hnotify h.flags.calm,
      ⟨fun hc => (by cases hc), fun _ hc => (by cases hc), fun _ _ => rfl, fun e' he' => ?_,
        h.owner.ended, fun i pc hi => (hjoined i pc hi).imp_right Or.inl,
        fun hc => (by cases hc), fun i hi => ?_⟩⟩
    · rcases he' with he' | he'
      · cases he'
        exact he
      · exact h.owner.failing e' (Or.inr he')
    · rcases hi with hi | hi
      · exact h.owner.valid i (Or.inl hi)
      · cases hi
  · intro hnone
    refine ⟨{ h.ledger with }, h.flags.caller _ _ hdestroying hnotify fun _ => ?_,
      ⟨fun hc => (by cases hc), fun _ hc => (by cases hc), fun _ hc => (by cases hc),
        fun e' he' => ?_, fun _ he => (by cases he),
        fun i pc hi => (hjoined i pc hi).imp_right Or.inl, fun hc => (by cases hc),
        fun i hi => ?_⟩⟩
    · rcases h.flags.why hquit with hsome | hempty | htrue
      · exact absurd hnone hsome
      · exact ⟨hnone, hquit, hempty.2⟩
      · exact hdestroying htrue
    · rcases he' with he' | he'
      · cases he'
      · cases he'
    · rcases hi with hi | hi
      · exact h.owner.valid i (Or.inl hi)
      · cases hi

/-- `shutdown()` sets `quit` and takes the workers. -/
theorem Inv.stop (h : Inv s) {exc : Option ε} (hcaller : s.caller = .stopping exc) :
    (s.workers = [] → Inv (stopped exc { s with quit := true, workers := [] })) ∧
    (s.workers ≠ [] →
      Inv { s with quit := true, workers := [], caller := .notifying s.workers exc }) := by
  have hexc : ∀ e, exc = some e → s.exception = some e := by
    intro e he
    refine h.owner.failing e (Or.inl ?_)
    rw [hcaller, he]
    rfl
  have hprocessing : exc = none → s.draining = true → s.result ≠ none := by
    rintro rfl hdraining hnone
    have hin := h.owner.processing hdraining hnone
    rw [hcaller] at hin
    cases hin
  have hworking : ∀ t, s.caller ≠ .working t := by
    intro t ht
    rw [hcaller] at ht
    cases ht
  have hwhy : ∀ c : PoolCaller ε, (exc = none → c.destroying = true) →
      s.exception ≠ none ∨ (s.draining = true ∧ s.pending = [] ∧ s.active = 0) ∨
        c.destroying = true := by
    intro c hc
    cases hcase : exc with
    | none => exact Or.inr (Or.inr (hc hcase))
    | some e =>
        refine Or.inl ?_
        rw [hexc e hcase]
        exact Option.some_ne_none e
  -- without workers nothing is left to be joined
  constructor
  · intro hnone
    have hall := h.owner.all_returned hnone (by rw [hcaller]; rfl) hworking
    refine ⟨?_, ?_, Owner.stopped rfl rfl hall hexc (fun e he => h.owner.failing e (Or.inr he))
      hprocessing⟩
    · cases exc <;> exact { h.ledger with }
    · have hwaiting : s.threads.countP PoolPc.isWaiting = 0 := by
        refine List.countP_eq_zero.mpr fun pc hpc => ?_
        rw [hall pc hpc]
        exact Bool.false_ne_true
      cases hcase : exc with
      | none =>
          refine ⟨fun _ => rfl, fun _ => Or.inr (Or.inr rfl), fun _ => Or.inl hwaiting,
            fun _ hquit => (by cases hquit), fun hquit => (by cases hquit), fun hok => ?_⟩
          obtain ⟨he, -, hrest⟩ := h.flags.calm hok
          exact ⟨he, rfl, hrest⟩
      | some e =>
          refine ⟨fun _ => rfl, fun _ => hwhy .ended ?_, fun _ => Or.inl hwaiting,
            fun _ hquit => (by cases hquit), fun hquit => (by cases hquit),
            fun hok => (by cases hok)⟩
          rw [hcase]
          exact fun hnone => (by cases hnone)
  -- otherwise they are notified first
  · intro hsome
    refine ⟨{ h.ledger with }, ⟨fun _ => rfl, fun _ => hwhy (.notifying s.workers exc) ?_,
      fun _ => Or.inr rfl, fun _ hquit => (by cases hquit), fun hquit => (by cases hquit),
      fun hok => ?_⟩, ⟨fun hc => (by cases hc), fun _ hc => (by cases hc),
      fun hdraining hnone => ?_, fun e he => ?_, fun e he => ?_, fun i pc hi => ?_,
      fun _ => ⟨rfl, rfl, hsome⟩, fun i hi => ?_⟩⟩
    · rintro rfl
      rfl
    · obtain ⟨he, -, hrest⟩ := h.flags.calm hok
      exact ⟨he, rfl, hrest⟩
    · cases hcase : exc with
      | none => exact absurd hnone (hprocessing hcase hdraining)
      | some e => rfl
    · rcases he with he | he
      · exact hexc e he
      · exact h.owner.failing e (Or.inr he)
    · exact ⟨rfl, (h.owner.ended e he).2⟩
    · rcases h.owner.joined i pc hi with hpc | hmem | hmem | hc
      · exact Or.inl hpc
      · exact Or.inr (Or.inr (Or.inl hmem))
      · rw [hcaller] at hmem
        cases hmem
      · exact absurd hc (hworking i)
    · rcases hi with hi | hi
      · cases hi
      · exact h.owner.valid i (Or.inl hi)

/-- The caller changes from one state of `shutdown()` to the next. -/
theorem Owner.halting (h : Owner s) {rest rest' : List Nat} {exc : Option ε}
    (hhalting : s.caller.halting = true) (hrest : s.caller.toJoin = rest)
    (hexc : s.caller.exc = exc) (hin : s.caller.inProcess = exc.isSome) (hne : rest' ≠ [])
    (hsub : ∀ i ∈ rest', i ∈ rest)
    (hdone : ∀ (i : Nat) pc, s.threads[i]? = some pc → i ∈ rest → pc = .returned ∨ i ∈ rest') :
    Owner { s with caller := .joining rest' exc } := by
  obtain ⟨hquit, hworkers, -⟩ := h.halted hhalting
  have hworking : ∀ t, s.caller ≠ .working t := by
    intro t ht
    rw [ht] at hhalting
    cases hhalting
  refine ⟨fun hc => (by cases hc), fun _ hc => (by cases hc), fun hdraining hnone => ?_,
    fun e he => ?_, h.ended, fun i pc hi => ?_, fun _ => ⟨hquit, hworkers, hne⟩, fun i hi => ?_⟩
  · have hprocess := h.processing hdraining hnone
    rw [hin] at hprocess
    cases exc with
    | none => cases hprocess
    | some e => rfl
  · rcases he with he | he
    · exact h.failing e (Or.inl (hexc.trans he))
    · exact h.failing e (Or.inr he)
  · rcases h.joined i pc hi with hpc | hmem | hmem | hc
    · exact Or.inl hpc
    · exact Or.inr (Or.inl hmem)
    · rw [hrest] at hmem
      exact (hdone i pc hi hmem).imp_right fun hin => Or.inr (Or.inl hin)
    · exact absurd hc (hworking i)
  · rcases hi with hi | hi
    · exact h.valid i (Or.inl hi)
    · refine h.valid i (Or.inr ?_)
      rw [hrest]
      exact hsub i hi

theorem Inv.notify (h : Inv s) {workers : List Nat} {exc : Option ε}
    (hcaller : s.caller = .notifying workers exc) :
    Inv { s.notifyAll with caller := .joining workers exc } := by
  have hhalting : s.caller.halting = true := by rw [hcaller]; rfl
  have hrest : s.caller.toJoin = workers := by rw [hcaller]; rfl
  have hexc : s.caller.exc = exc := by rw [hcaller]; rfl
  have hin : s.caller.inProcess = exc.isSome := by
    rw [hcaller]
    cases exc <;> rfl
  have hne := (h.owner.halted hhalting).2.2
  rw [hrest] at hne
  refine ⟨{ h.ledger.notifyAll with }, ⟨h.flags.quits, fun hquit => ?_,
    fun _ => Or.inl (countP_isWaiting_wake _), h.flags.notifyAll.lively,
    h.flags.notifyAll.returns, h.flags.calm⟩, ?_⟩
  · refine (h.flags.why hquit).imp_right (Or.imp_right fun hdestroying => ?_)
    rw [hcaller] at hdestroying
    cases exc with
    | none => rfl
    | some e => cases hdestroying
  · exact h.owner.notifyAll.halting hhalting hrest hexc hin hne (fun _ hi => hi)
      fun _ _ _ hi => Or.inr hi

theorem Inv.join (h : Inv s) {workers : List Nat} {exc : Option ε}
    (hcaller : s.caller = .joining (t :: workers) exc)
    (hreturned : s.threads[t]? = some .returned) :
    (workers = [] → Inv (s.stopped exc)) ∧
    (workers ≠ [] → Inv { s with caller := .joining workers exc }) := by
  have hhalting : s.caller.halting = true := by rw [hcaller]; rfl
  have hrest : s.caller.toJoin = t :: workers := by rw [hcaller]; rfl
  have hexc : s.caller.exc = exc := by rw [hcaller]; rfl
  have hin : s.caller.inProcess = exc.isSome := by
    rw [hcaller]
    cases exc <;> rfl
  obtain ⟨hquit, hworkers, -⟩ := h.owner.halted hhalting
  have hdone : ∀ (i : Nat) pc, s.threads[i]? = some pc → i ∈ t :: workers →
      pc = .returned ∨ i ∈ workers := by
    intro i pc hi hmem
    rcases List.mem_cons.mp hmem with rfl | hmem
    · rw [hreturned] at hi
      exact Or.inl (Option.some.inj hi).symm
    · exact Or.inr hmem
  have hdestroying : s.caller.destroying = true → exc = none := by
    rw [hcaller]
    cases exc with
    | none => exact fun _ => rfl
    | some e => exact fun htrue => (by cases htrue)
  constructor
  · rintro rfl
    have hall : ∀ pc ∈ s.threads, pc = .returned := by
      intro pc hpc
      obtain ⟨i, hi⟩ := List.mem_iff_getElem?.mp hpc
      rcases h.owner.joined i pc hi with hpc | hmem | hmem | hc
      · exact hpc
      · rw [hworkers] at hmem
        cases hmem
      · rw [hrest] at hmem
        exact (hdone i pc hi hmem).resolve_right List.not_mem_nil
      · rw [hcaller] at hc
        cases hc
    refine ⟨?_, h.flags.stopped hdestroying (by rw [hcaller]; rfl),
      Owner.stopped hquit hworkers hall (fun e he => h.owner.failing e (Or.inl (hexc.trans he)))
        (fun e he => h.owner.failing e (Or.inr he)) ?_⟩
    · cases exc <;> exact { h.ledger with }
    · rintro rfl hdraining hnone
      have hprocess := h.owner.processing hdraining hnone
      rw [hin] at hprocess
      cases hprocess
  · intro hne
    refine ⟨{ h.ledger with }, h.flags.caller _ s.result (fun htrue => ?_) (fun htrue => ?_)
      h.flags.calm, h.owner.halting hhalting hrest hexc hin hne
        (fun _ hi => List.mem_cons_of_mem _ hi) hdone⟩
    · rw [hdestroying htrue]
      rfl
    · rw [hcaller] at htrue
      cases htrue

theorem Inv.destroy (h : Inv s) (hcaller : s.caller = .idle ∨ s.caller = .ended) :
    Inv { s with caller := .stopping none } := by
  have hjoin : s.caller.toJoin = [] ∧ s.caller.toNotify = false ∧ s.caller.inProcess = false ∧
      ∀ t, s.caller ≠ .working t := by
    rcases hcaller with hc | hc <;> rw [hc] <;>
      exact ⟨rfl, rfl, rfl, fun t ht => (by cases ht)⟩
  obtain ⟨hjoin, hnotify, hin, hworking⟩ := hjoin
  refine ⟨{ h.ledger with }, h.flags.caller _ s.result (fun _ => rfl) (fun htrue => ?_)
    h.flags.calm, ⟨fun hc => (by cases hc), fun _ hc => (by cases hc), fun hdraining hnone => ?_,
    fun e he => ?_, h.owner.ended, fun i pc hi => ?_, fun hc => (by cases hc), fun i hi => ?_⟩⟩
  · rw [hnotify] at htrue
    cases htrue
  · have hprocess := h.owner.processing hdraining hnone
    rw [hin] at hprocess
    cases hprocess
  · rcases he with he | he
    · cases he
    · exact h.owner.failing e (Or.inr he)
  · rcases h.owner.joined i pc hi with hpc | hmem | hmem | hc
    · exact Or.inl hpc
    · exact Or.inr (Or.inl hmem)
    · rw [hjoin] at hmem
      cases hmem
    · exact absurd hc (hworking i)
  · rcases hi with hi | hi
    · exact h.owner.valid i (Or.inl hi)
    · cases hi

/-- Each step keeps the invariant. -/
theorem inv_step [Inhabited κ] (h : Inv s) {x : PoolAction ι κ ε} (hstep : step s x = some s') :
    Inv s' := by
  have hcases := step_cases hstep
  cases x with
  | enqueue w woken =>
      rcases hcases with ⟨-, rfl⟩ | ⟨hquit, hnotify⟩
      · exact h
      · exact ⟨(h.ledger.push w).notifyOne hnotify, (h.flags.push hquit w).notifyOne hnotify,
          (h.owner.push hquit w).notifyOne hnotify⟩
  | process =>
      obtain ⟨hidle, rfl⟩ := hcases
      exact h.process hidle
  | lock t =>
      rcases hcases with ⟨hlooks, rfl⟩ | ⟨exc, hpc, rfl⟩
      · exact ⟨h.ledger.await hlooks, h.flags.await h.ledger hlooks, h.owner.await hlooks⟩
      · have hledger := h.ledger.record hpc
        have hlooks := looks_record hpc
        exact ⟨hledger.await hlooks, (h.flags.record h.ledger hpc).await hledger hlooks,
          (h.owner.record hpc).await hlooks⟩
  | work t point =>
      obtain ⟨w, point', hpc, rfl⟩ := hcases
      exact ⟨h.ledger.setPc hpc rfl rfl rfl fun _ => rfl, h.flags.setAwake hpc rfl,
        h.owner.setPc hpc rfl⟩
  | finish t =>
      obtain ⟨w, point, hpc, rfl⟩ := hcases
      exact ⟨h.ledger.finish hpc, { h.flags.setAwake hpc rfl with }, { h.owner.setPc hpc rfl with }⟩
  | throw t e =>
      obtain ⟨w, point, hpc, rfl⟩ := hcases
      exact ⟨h.ledger.throw hpc, { h.flags.setAwake hpc rfl with }, { h.owner.setPc hpc rfl with }⟩
  | wake t =>
      obtain ⟨hpc, rfl⟩ := hcases
      exact ⟨h.ledger.setPc hpc rfl rfl rfl fun _ => rfl, h.flags.setAwake hpc rfl,
        h.owner.setPc hpc rfl⟩
  | check =>
      obtain ⟨t, hcaller, hreturned, hquit, ⟨e, he, rfl⟩ | ⟨hnone, rfl⟩⟩ := hcases
      · exact (h.check hcaller hreturned hquit).1 e he
      · exact (h.check hcaller hreturned hquit).2 hnone
  | stop =>
      obtain ⟨exc, hcaller, ⟨hnone, rfl⟩ | ⟨hsome, rfl⟩⟩ := hcases
      · exact (h.stop hcaller).1 hnone
      · exact (h.stop hcaller).2 hsome
  | notify =>
      obtain ⟨workers, exc, hcaller, rfl⟩ := hcases
      exact h.notify hcaller
  | join =>
      obtain ⟨t, workers, exc, hcaller, hreturned, ⟨hnone, rfl⟩ | ⟨hsome, rfl⟩⟩ := hcases
      · exact (h.join hcaller hreturned).1 hnone
      · exact (h.join hcaller hreturned).2 hsome
  | destroy =>
      obtain ⟨hcaller, rfl⟩ := hcases
      exact h.destroy hcaller

-- ============================================================================
-- Section 4: No wake-up is lost
-- ============================================================================

/-- A thread that is awake can go on. -/
theorem Ledger.goes [Inhabited κ] (h : Ledger s) (ha : s.threads[t]? = some a)
    (hawake : a.awake = true) : ∃ x, x.own = true ∧ s.step x ≠ none := by
  cases a with
  | entering => exact ⟨.lock t, rfl, by simp [step, lockStep, ha]⟩
  | woken => exact ⟨.lock t, rfl, by simp [step, lockStep, ha]⟩
  | running w point => exact ⟨.finish t, rfl, by simp [step, ha]⟩
  | finished exc =>
      have hpos := h.active_pos ha rfl
      exact ⟨.lock t, rfl, by simp [step, lockStep, ha, Nat.ne_of_gt hpos]⟩
  | waiting => cases hawake
  | returned => cases hawake

/-- After `quit` a thread that has not returned is awake, once the workers have
    been notified. -/
theorem Flags.awake_of_quit (h : Flags s) (hquit : s.quit = true)
    (hnotify : s.caller.toNotify = false) (ha : s.threads[t]? = some a) (hne : a ≠ .returned) :
    a.awake = true := by
  have hnone : s.threads.countP PoolPc.isWaiting = 0 := by
    refine (h.roused hquit).resolve_right fun htrue => ?_
    rw [hnotify] at htrue
    cases htrue
  have hwaiting := List.countP_eq_zero.mp hnone a (List.mem_of_getElem? ha)
  cases a <;> first | rfl | exact absurd rfl hwaiting | exact absurd rfl hne

theorem inCall_of_inProcess {caller : PoolCaller ε} (h : caller.inProcess = true) :
    caller.inCall = true := by
  cases caller <;> first | rfl | cases h

/-- Nobody is left waiting: as long as `process()` or the destructor is not over,
    something can happen. -/
theorem Inv.goes [Inhabited κ] (h : Inv s) (hcaller : s.caller.inCall = true) :
    ∃ x, x.own = true ∧ s.step x ≠ none := by
  cases hcase : s.caller with
  | working t =>
      obtain ⟨hdraining, -, hlt⟩ := h.owner.working t hcase
      have hget := List.getElem?_eq_getElem hlt
      by_cases hreturned : s.threads[t] = .returned
      · have hquit : s.quit = true := by
          cases hrunning : s.quit with
          | true => rfl
          | false =>
              have hnone := h.flags.returns hrunning
              have hpos := countP_pos_of_getElem? hget (p := PoolPc.isReturned)
                (by rw [hreturned]; rfl)
              omega
        refine ⟨.check, rfl, ?_⟩
        rw [hreturned] at hget
        simp only [step, ThreadPool.check, hcase, any_isReturned.mpr hget, hquit, if_true]
        cases s.exception <;> exact Option.some_ne_none _
      · cases hquit : s.quit with
        | true =>
            exact h.ledger.goes hget
              (h.flags.awake_of_quit hquit (by rw [hcase]; rfl) hget hreturned)
        | false =>
            obtain ⟨pc, hpc, hawake⟩ := List.countP_pos_iff.mp (h.flags.lively hdraining hquit)
            obtain ⟨i, hi⟩ := List.mem_iff_getElem?.mp hpc
            exact h.ledger.goes hi hawake
  | stopping exc =>
      refine ⟨.stop, rfl, ?_⟩
      simp only [step, hcase]
      split <;> exact Option.some_ne_none _
  | notifying workers exc =>
      refine ⟨.notify, rfl, ?_⟩
      simp only [step, hcase]
      exact Option.some_ne_none _
  | joining workers exc =>
      obtain ⟨hquit, -, hne⟩ := h.owner.halted (by rw [hcase]; rfl)
      rw [hcase] at hne
      obtain ⟨t, rest, rfl⟩ := List.exists_cons_of_ne_nil hne
      have hlt := h.owner.valid t (Or.inr (by rw [hcase]; exact List.mem_cons_self))
      have hget := List.getElem?_eq_getElem hlt
      by_cases hreturned : s.threads[t] = .returned
      · refine ⟨.join, rfl, ?_⟩
        rw [hreturned] at hget
        simp only [step, hcase, any_isReturned.mpr hget, if_true]
        split <;> exact Option.some_ne_none _
      · exact h.ledger.goes hget
          (h.flags.awake_of_quit hquit (by rw [hcase]; rfl) hget hreturned)
  | idle =>
      rw [hcase] at hcaller
      cases hcaller
  | ended =>
      rw [hcase] at hcaller
      cases hcaller
  | destroyed =>
      rw [hcase] at hcaller
      cases hcaller

/-- `process()` is over when nothing can happen any more. -/
theorem Inv.result_of_idle [Inhabited κ] (h : Inv s) (hdraining : s.draining = true)
    (hidle : s.Idle) : s.result ≠ none := by
  intro hnone
  obtain ⟨x, hown, hstep⟩ := h.goes (inCall_of_inProcess (h.owner.processing hdraining hnone))
  exact hstep (hidle x hown)

/-- Once `process()` has returned, every item is over, and none threw. -/
theorem Inv.completed_of_ok (h : Inv s) (hok : s.result = some (.ok ())) :
    s.completed.Perm s.enqueued ∧ s.threw = [] ∧ s.jobs = [] := by
  obtain ⟨hexc, hquit, hpending, hactive⟩ := h.flags.calm hok
  have hbusy : s.threads.countP PoolPc.busy = 0 := h.ledger.active_eq.symm.trans hactive
  have hidle : ∀ pc ∈ s.threads, ¬ pc.busy = true := List.countP_eq_zero.mp hbusy
  have hcaught : s.threads.countP PoolPc.caught = 0 := by
    refine List.countP_eq_zero.mpr fun pc hpc htrue => hidle pc hpc ?_
    cases pc <;> first | rfl | cases htrue
  have hruns : ∀ q : ι → Bool, s.threads.countP (PoolPc.runs q) = 0 := by
    intro q
    refine List.countP_eq_zero.mpr fun pc hpc htrue => hidle pc hpc ?_
    cases pc <;> first | rfl | cases htrue
  have hthrew : s.threw = [] := List.length_eq_zero_iff.mp ((h.ledger.thrown hexc).trans hcaught)
  refine ⟨?_, hthrew, ?_⟩
  · classical
    refine List.perm_iff_count.mpr fun w => ?_
    have hitems := h.ledger.items (· == w)
    rw [hpending, hruns, hthrew] at hitems
    simp only [List.countP_nil, Nat.zero_add, Nat.add_zero] at hitems
    exact hitems.symm
  · refine List.filterMap_eq_nil_iff.mpr fun pc hpc => ?_
    have hpc' := hidle pc hpc
    cases pc <;> first | rfl | exact absurd rfl hpc'

/-- Once `process()` is over, no item is being executed. -/
theorem Inv.jobs_eq_nil (h : Inv s) (hresult : s.result ≠ none) : s.jobs = [] := by
  cases hcase : s.result with
  | none => exact absurd hcase hresult
  | some r =>
      cases r with
      | ok u => exact (h.completed_of_ok hcase).2.2
      | error e =>
          refine List.filterMap_eq_nil_iff.mpr fun pc hpc => ?_
          rw [(h.owner.ended e hcase).2 pc hpc]
          rfl

end ThreadPool
end NixStore
