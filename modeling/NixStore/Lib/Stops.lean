/-
  NixStore.Lib.Stops

  A program that does what another one does, until it gives up.

  Started in states with an invariant, `x` runs as `y` does and keeps the
  invariant, or throws the exception `e` somewhere on the way.  What holds then
  of the state `x` has stopped in and of the one `y` ends in is a relation that
  the rest of `y` has to keep, whatever it does.
-/

import NixStore.Lib.Effect

namespace NixStore
namespace Effect

variable {ε σ α β : Type}

/-- `x` runs as `y` does, or stops before it with `e`. -/
def Stops (P : σ → Prop) (e : ε) (R : σ → σ → Prop) (x y : EStateM ε σ α) : Prop :=
  ∀ s, P s → (x s = y s ∧ P (final y s)) ∨ ∃ t, x s = .error e t ∧ R t (final y s)

namespace Stops

variable {P : σ → Prop} {e : ε} {R : σ → σ → Prop}

theorem same {x : EStateM ε σ α} (h : Keeps P x) : Stops P e R x x :=
  fun _ hs => .inl ⟨rfl, h.final hs⟩

/-- A first step that both take. -/
theorem step {x : EStateM ε σ α} {f g : α → EStateM ε σ β} (hx : Keeps P x)
    (hfg : ∀ a, Stops P e R (f a) (g a)) : Stops P e R (x >>= f) (x >>= g) := by
  intro s hs
  have hP := hx.final hs
  cases hrun : x s with
  | ok a s' =>
      rw [final, hrun] at hP
      rw [final_bind_of_ok hrun, bind_of_ok hrun, bind_of_ok hrun]
      exact hfg a s' hP
  | error f s' =>
      rw [final, hrun] at hP
      rw [final_bind_of_error hrun, bind_of_error hrun, bind_of_error hrun]
      exact .inl ⟨rfl, hP⟩

/-- A first step that may stop: the rest has to keep the relation. -/
theorem seq {x y : EStateM ε σ α} {f g : α → EStateM ε σ β} (hxy : Stops P e R x y)
    (hfg : ∀ a, Stops P e R (f a) (g a)) (hg : ∀ a t, Keeps (R t) (g a)) :
    Stops P e R (x >>= f) (y >>= g) := by
  intro s hs
  rcases hxy s hs with ⟨hsame, hP⟩ | ⟨t, hstop, hR⟩
  · cases hy : y s with
    | ok a s' =>
        rw [final, hy] at hP
        rw [final_bind_of_ok hy, bind_of_ok (hsame.trans hy), bind_of_ok hy]
        exact hfg a s' hP
    | error f s' =>
        rw [final, hy] at hP
        rw [final_bind_of_error hy, bind_of_error (hsame.trans hy), bind_of_error hy]
        exact .inl ⟨rfl, hP⟩
  · refine .inr ⟨t, bind_of_error hstop, ?_⟩
    cases hy : y s with
    | ok a s' =>
        rw [final, hy] at hR
        rw [final_bind_of_ok hy]
        exact (hg a t).final hR
    | error f s' =>
        rw [final, hy] at hR
        rw [final_bind_of_error hy]
        exact hR

theorem cond {c : Prop} [Decidable c] {x x' y y' : EStateM ε σ α}
    (hthen : c → Stops P e R x y) (helse : ¬ c → Stops P e R x' y') :
    Stops P e R (if c then x else x') (if c then y else y') := by
  by_cases hc : c
  · rw [if_pos hc, if_pos hc]
    exact hthen hc
  · rw [if_neg hc, if_neg hc]
    exact helse hc

/-- A program that starts with a look at the state. -/
theorem look {f g : σ → EStateM ε σ α} (h : ∀ t, Stops P e R (f t) (g t)) :
    Stops P e R (get >>= f) (get >>= g) := fun s hs => h s s hs

/-- The loop over a list. -/
theorem each {f g : α → EStateM ε σ PUnit} {l : List α} (hfg : ∀ a ∈ l, Stops P e R (f a) (g a))
    (hg : ∀ a ∈ l, ∀ t, Keeps (R t) (g a)) : Stops P e R (l.forM f) (l.forM g) := by
  induction l with
  | nil => exact same (Keeps.ret _)
  | cons a l ih =>
      refine seq (hfg a List.mem_cons_self) (fun _ => ?_) fun _ t =>
        Keeps.loop fun b hb => hg b (List.mem_cons_of_mem a hb) t
      exact ih (fun b hb => hfg b (List.mem_cons_of_mem a hb)) fun b hb =>
        hg b (List.mem_cons_of_mem a hb)

end Stops
end Effect
end NixStore
