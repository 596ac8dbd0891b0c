/-
  NixStore.Lib.Related

  Two programs side by side: started in states that a relation holds of, they
  return the same or throw the same, in states that it holds of again.

  The rules follow the ways of building programs, one each; a program is
  related to itself by composing them (`Relates.seq`), so only the steps that
  use what the relation leaves open have to be looked at.
-/

import Mathlib.Logic.Basic

namespace NixStore
namespace Related

variable {ε σ τ α β : Type}

/-- Related answers in related states. -/
def Ends (R : σ → τ → Prop) : EStateM.Result ε σ α → EStateM.Result ε τ α → Prop
  | .ok a s, .ok b t => a = b ∧ R s t
  | .error e s, .error f t => e = f ∧ R s t
  | _, _ => False

/-- Related states lead to the same answer and to related states. -/
def Relates (R : σ → τ → Prop) (x : EStateM ε σ α) (y : EStateM ε τ α) : Prop :=
  ∀ s t, R s t → Ends R (x s) (y t)

namespace Relates

variable {R : σ → τ → Prop}

theorem ret (a : α) : Relates R (pure a : EStateM ε σ α) (pure a) :=
  fun _ _ h => ⟨rfl, h⟩

theorem raise (e : ε) : Relates R (throw e : EStateM ε σ α) (throw e) :=
  fun _ _ h => ⟨rfl, h⟩

theorem seq {x : EStateM ε σ α} {y : EStateM ε τ α} {f : α → EStateM ε σ β}
    {g : α → EStateM ε τ β} (hxy : Relates R x y) (hfg : ∀ a, Relates R (f a) (g a)) :
    Relates R (x >>= f) (y >>= g) := by
  intro s t h
  have hends := hxy s t h
  show Ends R (EStateM.bind x f s) (EStateM.bind y g t)
  unfold EStateM.bind
  cases hx : x s with
  | ok a s' =>
      cases hy : y t with
      | ok b t' =>
          rw [hx, hy] at hends
          obtain ⟨rfl, hR⟩ := hends
          exact hfg _ s' t' hR
      | error e t' =>
          rw [hx, hy] at hends
          exact hends.elim
  | error e s' =>
      cases hy : y t with
      | ok b t' =>
          rw [hx, hy] at hends
          exact hends.elim
      | error f t' =>
          rw [hx, hy] at hends
          exact hends

theorem cond {p : Prop} [Decidable p] {x x' : EStateM ε σ α} {y y' : EStateM ε τ α}
    (hthen : p → Relates R x y) (helse : ¬ p → Relates R x' y') :
    Relates R (if p then x else x') (if p then y else y') := by
  by_cases hp : p
  · rw [if_pos hp, if_pos hp]
    exact hthen hp
  · rw [if_neg hp, if_neg hp]
    exact helse hp

theorem change {f : σ → σ} {g : τ → τ} (h : ∀ s t, R s t → R (f s) (g t)) :
    Relates R (modify f : EStateM ε σ PUnit) (modify g) :=
  fun s t hR => ⟨rfl, h s t hR⟩

/-- The loop over a list. -/
theorem each {f : α → EStateM ε σ PUnit} {g : α → EStateM ε τ PUnit} {l : List α}
    (h : ∀ a ∈ l, Relates R (f a) (g a)) : Relates R (l.forM f) (l.forM g) := by
  induction l with
  | nil => exact ret _
  | cons a l ih =>
      exact seq (h a List.mem_cons_self) fun _ => ih fun b hb => h b (List.mem_cons_of_mem a hb)

end Relates

/-- Throw something else. -/
def mapError (f : ε → ε) (x : EStateM ε σ α) : EStateM ε σ α := fun s =>
  match x s with
  | .ok a s' => .ok a s'
  | .error e s' => .error (f e) s'

theorem Relates.mapError {R : σ → τ → Prop} {x : EStateM ε σ α} {y : EStateM ε τ α} (f : ε → ε)
    (h : Relates R x y) : Relates R (Related.mapError f x) (Related.mapError f y) := by
  intro s t hR
  have hends := h s t hR
  unfold Related.mapError
  cases hx : x s with
  | ok a s' =>
      cases hy : y t with
      | ok b t' =>
          rw [hx, hy] at hends
          exact hends
      | error e t' =>
          rw [hx, hy] at hends
          exact hends.elim
  | error e s' =>
      cases hy : y t with
      | ok b t' =>
          rw [hx, hy] at hends
          exact hends.elim
      | error g t' =>
          rw [hx, hy] at hends
          exact ⟨congrArg f hends.1, hends.2⟩

end Related
end NixStore
