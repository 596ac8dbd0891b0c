/-
  NixStore.Lib.Rounds

  Loops whose rounds may fail.

  A round ends the loop with a result, goes on from a new state or fails.
  `rounds` runs at most so many of them; `Ends` says that the loop comes to an
  end.  It does when every round that goes on lowers a well-founded measure
  (`exists_ends`), and its result has what an invariant says about the last
  state (`Ends.invariant`).
-/

import Mathlib.Order.WellFounded

namespace NixStore
namespace Rounds

variable {σ β ε : Type} {round : σ → Except ε (σ ⊕ β)}

/-- At most so many rounds; none if they are not enough. -/
def rounds (round : σ → Except ε (σ ⊕ β)) : Nat → σ → Option (Except ε β)
  | 0, _ => none
  | fuel + 1, s =>
      match round s with
      | .error e => some (.error e)
      | .ok (.inr b) => some (.ok b)
      | .ok (.inl s') => rounds round fuel s'

/-- From here on the loop ends with this result. -/
def Ends (round : σ → Except ε (σ ⊕ β)) (s : σ) (r : Except ε β) : Prop :=
  ∃ fuel, rounds round fuel s = some r

/-- More rounds than enough give the same result. -/
theorem rounds_mono {fuel more : Nat} {s : σ} {r : Except ε β}
    (h : rounds round fuel s = some r) (hle : fuel ≤ more) : rounds round more s = some r := by
  induction fuel generalizing more s with
  | zero => cases h
  | succ fuel ih =>
      obtain ⟨more, rfl⟩ : ∃ k, more = k + 1 := ⟨more - 1, by omega⟩
      rw [rounds] at h ⊢
      split at h
      · exact h
      · exact h
      · exact ih h (by omega)

theorem Ends.unique {s : σ} {r r' : Except ε β} (h : Ends round s r) (h' : Ends round s r') :
    r = r' := by
  obtain ⟨fuel, h⟩ := h
  obtain ⟨fuel', h'⟩ := h'
  have heq := rounds_mono h (Nat.le_max_left fuel fuel')
  rw [rounds_mono h' (Nat.le_max_right fuel fuel')] at heq
  exact (Option.some.inj heq).symm

theorem ends_error {s : σ} {e : ε} (h : round s = .error e) : Ends round s (.error e) :=
  ⟨1, by rw [rounds, h]⟩

theorem ends_done {s : σ} {b : β} (h : round s = .ok (.inr b)) : Ends round s (.ok b) :=
  ⟨1, by rw [rounds, h]⟩

theorem ends_next {s s' : σ} {r : Except ε β} (h : round s = .ok (.inl s'))
    (hends : Ends round s' r) : Ends round s r := by
  obtain ⟨fuel, hends⟩ := hends
  exact ⟨fuel + 1, by rw [rounds, h]; exact hends⟩

/-- A loop ends when every round that goes on lowers a measure. -/
theorem exists_ends {lower : σ → σ → Prop} (hwf : WellFounded lower)
    (h : ∀ s s', round s = .ok (.inl s') → lower s' s) (s : σ) : ∃ r, Ends round s r := by
  induction s using hwf.induction with
  | _ s ih =>
      cases hround : round s with
      | error e => exact ⟨_, ends_error hround⟩
      | ok next =>
          cases next with
          | inr b => exact ⟨_, ends_done hround⟩
          | inl s' =>
              obtain ⟨r, hr⟩ := ih s' (h s s' hround)
              exact ⟨r, ends_next hround hr⟩

/-- What the rounds keep, the last state has. -/
theorem Ends.invariant {I : σ → Prop} {Q : β → Prop}
    (hstep : ∀ s s', I s → round s = .ok (.inl s') → I s')
    (hdone : ∀ s b, I s → round s = .ok (.inr b) → Q b) {s : σ} {b : β} (hI : I s)
    (h : Ends round s (.ok b)) : Q b := by
  obtain ⟨fuel, h⟩ := h
  induction fuel generalizing s with
  | zero => cases h
  | succ fuel ih =>
      rw [rounds] at h
      split at h
      · cases h
      · next b' hround =>
          cases h
          exact hdone s _ hI hround
      · next s' hround => exact ih (hstep s s' hI hround) h

end Rounds
end NixStore
