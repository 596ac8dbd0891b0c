/-
  NixStore.Lib.Transition

  Systems that take step after step.

  A system says in which states it may start and what each action does, if it
  can be taken at all.  A run is a list of actions; `Reachable ok` are the
  states that runs lead to when every action taken meets the condition `ok` in
  the state it is taken in.
-/

import Mathlib.Algebra.GroupWithZero.Nat
import Mathlib.Logic.Basic

namespace NixStore

/-- A labelled transition system. -/
structure System (σ α : Type) where
  init : σ → Prop
  step : σ → α → Option σ

namespace System

variable {σ α : Type} (sys : System σ α)

/-- Take actions one after another. -/
def run : List α → σ → Option σ
  | [], s => some s
  | a :: rest, s => (sys.step s a).bind (run rest)

/-- The states that runs lead to whose actions all meet a condition. -/
inductive Reachable (ok : σ → α → Prop) : σ → Prop where
  | init {s : σ} : sys.init s → Reachable ok s
  | step {s s' : σ} {a : α} : Reachable ok s → ok s a → sys.step s a = some s' → Reachable ok s'

variable {sys}

/-- What holds at the start and is kept by each step holds in every state. -/
theorem Reachable.invariant {ok : σ → α → Prop} {I : σ → Prop} {s : σ}
    (h : sys.Reachable ok s) (hinit : ∀ s, sys.init s → I s)
    (hstep : ∀ s s' a, I s → ok s a → sys.step s a = some s' → I s') : I s := by
  induction h with
  | init hs => exact hinit _ hs
  | step _ hok hs ih => exact hstep _ _ _ ih hok hs

/-- The end of a run whose actions meet the condition whenever they are
    taken. -/
theorem Reachable.run {ok : σ → α → Prop} {s : σ} (h : sys.Reachable ok s) {l : List α}
    (hok : ∀ a ∈ l, ∀ s, ok s a) {s' : σ} (hrun : sys.run l s = some s') :
    sys.Reachable ok s' := by
  induction l generalizing s with
  | nil =>
      cases hrun
      exact h
  | cons a rest ih =>
      obtain ⟨t, ht, hrest⟩ := Option.bind_eq_some_iff.mp hrun
      refine ih (Reachable.step h (hok a List.mem_cons_self s) ht) ?_ hrest
      exact fun b hb => hok b (List.mem_cons_of_mem a hb)

/-- The same, where the condition is met in every state in which something
    holds that the steps keep. -/
theorem Reachable.run_keeping {ok : σ → α → Prop} {I : σ → Prop} (hok : ∀ s a, I s → ok s a)
    (hkeep : ∀ s s' a, I s → sys.step s a = some s' → I s') {s : σ} (h : sys.Reachable ok s)
    (hI : I s) {l : List α} {s' : σ} (hrun : sys.run l s = some s') : sys.Reachable ok s' := by
  induction l generalizing s with
  | nil =>
      cases hrun
      exact h
  | cons a rest ih =>
      obtain ⟨t, ht, hrest⟩ := Option.bind_eq_some_iff.mp hrun
      exact ih (Reachable.step h (hok s a hI) ht) (hkeep s t a hI ht) hrest

variable (sys) in
/-- Take actions one after another, as long as a check of each passes. -/
def runChecked (check : σ → α → Bool) : List α → σ → Option σ
  | [], s => some s
  | a :: rest, s => if check s a then (sys.step s a).bind (runChecked check rest) else none

/-- The end of a run whose actions pass a check that implies the condition. -/
theorem Reachable.runChecked {ok : σ → α → Prop} {check : σ → α → Bool}
    (hcheck : ∀ s a, check s a = true → ok s a) {s : σ} (h : sys.Reachable ok s) {l : List α}
    {s' : σ} (hrun : sys.runChecked check l s = some s') : sys.Reachable ok s' := by
  induction l generalizing s with
  | nil =>
      cases hrun
      exact h
  | cons a rest ih =>
      simp only [System.runChecked] at hrun
      split at hrun
      · next hpass =>
          obtain ⟨t, ht, hrest⟩ := Option.bind_eq_some_iff.mp hrun
          exact ih (Reachable.step h (hcheck s a hpass) ht) hrest
      · cases hrun

/-- What the steps keep holds at the end of a run. -/
theorem run_keeps {I : σ → Prop} (hstep : ∀ s s' a, I s → sys.step s a = some s' → I s') {s : σ}
    (h : I s) {l : List α} {s' : σ} (hrun : sys.run l s = some s') : I s' := by
  induction l generalizing s with
  | nil =>
      cases hrun
      exact h
  | cons a rest ih =>
      obtain ⟨t, ht, hrest⟩ := Option.bind_eq_some_iff.mp hrun
      exact ih (hstep s t a h ht) hrest

/-- A run is paid for out of what it starts with and what it earns on the way,
    if each step is. -/
theorem run_cost {I : σ → Prop} {cost earned : σ → Nat} {pay gain : α → Nat}
    (hkeep : ∀ s s' a, I s → sys.step s a = some s' → I s')
    (hcost : ∀ s s' a, I s → sys.step s a = some s' →
      cost s' + earned s + pay a ≤ cost s + earned s' + gain a)
    {s : σ} (h : I s) {l : List α} {s' : σ} (hrun : sys.run l s = some s') :
    cost s' + earned s + (l.map pay).sum ≤ cost s + earned s' + (l.map gain).sum := by
  induction l generalizing s with
  | nil =>
      cases hrun
      exact Nat.le_refl _
  | cons a rest ih =>
      obtain ⟨t, ht, hrest⟩ := Option.bind_eq_some_iff.mp hrun
      have hfirst := hcost s t a h ht
      have hlater := ih (hkeep s t a h ht) hrest
      rw [List.map_cons, List.sum_cons, List.map_cons, List.sum_cons]
      omega

end System
end NixStore
