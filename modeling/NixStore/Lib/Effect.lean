/-
  NixStore.Lib.Effect

  Programs that read and write a state and may throw, where the state
  survives the exception (`EStateM`).

  `Spec P x Q E` is the usual triple: started in a state with `P`, the program
  `x` returns `a` in a state with `Q a`, or throws `e` in a state with `E e`.
  Every rule below is a statement about one way of building programs.
-/

import Mathlib.Logic.Basic

namespace NixStore
namespace Effect

variable {ε σ τ α β : Type}

/-- Precondition, program, postcondition, and what holds when it throws. -/
def Spec (P : σ → Prop) (x : EStateM ε σ α) (Q : α → σ → Prop) (E : ε → σ → Prop) : Prop :=
  ∀ s, P s → match x s with
    | .ok a s' => Q a s'
    | .error e s' => E e s'

/-- What a program does when it is started in one given state. -/
abbrev Run (s : σ) (x : EStateM ε σ α) (Q : α → σ → Prop) (E : ε → σ → Prop) : Prop :=
  Spec (fun t => t = s) x Q E

/-! ## Running -/

theorem throw_run (e : ε) (s : σ) : (throw e : EStateM ε σ α) s = .error e s := rfl

theorem get_run (s : σ) : (get : EStateM ε σ σ) s = .ok s s := rfl

theorem bind_run (x : EStateM ε σ α) (f : α → EStateM ε σ β) (s : σ) :
    (x >>= f) s = match x s with
      | .ok a s' => f a s'
      | .error e s' => .error e s' := by
  show EStateM.bind x f s = _
  unfold EStateM.bind
  cases x s <;> rfl

theorem bind_of_ok {x : EStateM ε σ α} {f : α → EStateM ε σ β} {s s' : σ} {a : α}
    (h : x s = .ok a s') : (x >>= f) s = f a s' := by
  rw [bind_run, h]

theorem bind_of_error {x : EStateM ε σ α} {f : α → EStateM ε σ β} {s s' : σ} {e : ε}
    (h : x s = .error e s') : (x >>= f) s = .error e s' := by
  rw [bind_run, h]

theorem modify_bind (g : σ → σ) (f : PUnit → EStateM ε σ β) (s : σ) :
    (modify g >>= f) s = f ⟨⟩ (g s) := rfl

theorem forM_append (f : α → EStateM ε σ PUnit) (l l' : List α) :
    (l ++ l').forM f = l.forM f >>= fun _ => l'.forM f :=
  List.forM_append

/-- Whether a run returns, to be computed where a run is given. -/
def returns : EStateM.Result ε σ α → Bool
  | .ok _ _ => true
  | .error _ _ => false

theorem ok_of_returns {r : EStateM.Result ε σ α} (h : returns r = true) :
    ∃ a s, r = .ok a s := by
  cases r with
  | ok a s => exact ⟨a, s, rfl⟩
  | error e s => cases h

theorem error_of_not_returns {r : EStateM.Result ε σ α} (h : returns r = false) :
    ∃ e s, r = .error e s := by
  cases r with
  | ok a s => cases h
  | error e s => exact ⟨e, s, rfl⟩

/-- A program that returned has returned from each of its steps. -/
theorem bind_eq_ok {x : EStateM ε σ α} {f : α → EStateM ε σ β} {s s' : σ} {b : β} :
    (x >>= f) s = .ok b s' ↔ ∃ a t, x s = .ok a t ∧ f a t = .ok b s' := by
  rw [bind_run]
  cases hx : x s with
  | ok a t =>
      constructor
      · intro h
        exact ⟨a, t, rfl, h⟩
      · rintro ⟨a', t', hx', h⟩
        cases hx'
        exact h
  | error e t => simp

/-- What a program returns or throws, without the state it leaves. -/
def result (x : EStateM ε σ α) (s : σ) : Except ε α :=
  match x s with
  | .ok a _ => .ok a
  | .error e _ => .error e

/-- The state a program leaves, whether it returns or throws. -/
def final (x : EStateM ε σ α) (s : σ) : σ :=
  match x s with
  | .ok _ s' => s'
  | .error _ s' => s'

theorem final_bind_of_ok {x : EStateM ε σ α} {f : α → EStateM ε σ β} {s s' : σ} {a : α}
    (h : x s = .ok a s') : final (x >>= f) s = final (f a) s' := by
  unfold final
  rw [bind_of_ok h]

theorem final_bind_of_error {x : EStateM ε σ α} {f : α → EStateM ε σ β} {s s' : σ} {e : ε}
    (h : x s = .error e s') : final (x >>= f) s = s' := by
  unfold final
  rw [bind_of_error h]

/-! ## Lifting -/

/-- A pure computation that may throw. -/
def fromExcept (x : Except ε α) : EStateM ε σ α := fun s =>
  match x with
  | .ok a => .ok a s
  | .error e => .error e s

/-- A program on a part of the state. -/
def zoom (part : σ → τ) (put : τ → σ → σ) (x : EStateM ε τ α) : EStateM ε σ α := fun s =>
  match x (part s) with
  | .ok a t => .ok a (put t s)
  | .error e t => .error e (put t s)

theorem fromExcept_ok (a : α) (s : σ) : (fromExcept (.ok a) : EStateM ε σ α) s = .ok a s := rfl

theorem fromExcept_error (e : ε) (s : σ) : (fromExcept (.error e) : EStateM ε σ α) s = .error e s := rfl

theorem fromExcept_bind (x : Except ε α) (f : α → Except ε β) :
    (fromExcept (x >>= f) : EStateM ε σ β) = fromExcept x >>= fun a => fromExcept (f a) := by
  cases x with
  | ok a => rfl
  | error e => rfl

/-! ## Rules -/

namespace Spec

variable {P P' : σ → Prop} {Q Q' : α → σ → Prop} {R : β → σ → Prop} {E E' : ε → σ → Prop}

theorem of_ok {x : EStateM ε σ α} (h : Spec P x Q E) {s s' : σ} {a : α} (hs : P s)
    (hx : x s = .ok a s') : Q a s' := by
  have := h s hs
  rw [hx] at this
  exact this

theorem of_error {x : EStateM ε σ α} (h : Spec P x Q E) {s s' : σ} {e : ε} (hs : P s)
    (hx : x s = .error e s') : E e s' := by
  have := h s hs
  rw [hx] at this
  exact this

/-- To look at one state is enough. -/
theorem at_state {x : EStateM ε σ α} (h : ∀ s, P s → Run s x Q E) : Spec P x Q E :=
  fun s hs => h s hs s rfl

theorem final_of {x : EStateM ε σ α} {I : σ → Prop} {s : σ}
    (h : Run s x (fun _ => I) (fun _ => I)) : I (final x s) := by
  have hrun := h s rfl
  unfold final
  cases hx : x s with
  | ok a s' =>
      rw [hx] at hrun
      exact hrun
  | error e s' =>
      rw [hx] at hrun
      exact hrun

theorem ret {a : α} (h : ∀ s, P s → Q a s) : Spec P (pure a : EStateM ε σ α) Q E :=
  fun s hs => h s hs

theorem raise {e : ε} (h : ∀ s, P s → E e s) : Spec P (throw e : EStateM ε σ α) Q E :=
  fun s hs => h s hs

theorem lift {x : Except ε α} (hok : ∀ a s, x = .ok a → P s → Q a s)
    (herr : ∀ e s, x = .error e → P s → E e s) : Spec P (fromExcept x) Q E := by
  intro s hs
  cases x with
  | ok a => exact hok a s rfl hs
  | error e => exact herr e s rfl hs

theorem seq {x : EStateM ε σ α} {f : α → EStateM ε σ β} (hx : Spec P x Q E)
    (hf : ∀ a, Spec (Q a) (f a) R E) : Spec P (x >>= f) R E := by
  intro s hs
  rw [bind_run]
  have h := hx s hs
  cases hrun : x s with
  | ok a s' =>
      rw [hrun] at h
      exact hf a s' h
  | error e s' =>
      rw [hrun] at h
      exact h

theorem weaken {x : EStateM ε σ α} (h : Spec P x Q E) (hP : ∀ s, P' s → P s)
    (hQ : ∀ a s, Q a s → Q' a s) (hE : ∀ e s, E e s → E' e s) : Spec P' x Q' E' := by
  intro s hs
  have hrun := h s (hP s hs)
  cases hx : x s with
  | ok a s' =>
      rw [hx] at hrun
      exact hQ a s' hrun
  | error e s' =>
      rw [hx] at hrun
      exact hE e s' hrun

/-- Two statements about one program. -/
theorem both {x : EStateM ε σ α} (h : Spec P x Q E) (h' : Spec P' x Q' E') :
    Spec (fun s => P s ∧ P' s) x (fun a s => Q a s ∧ Q' a s) (fun e s => E e s ∧ E' e s) := by
  intro s hs
  have hrun := h s hs.1
  have hrun' := h' s hs.2
  cases hx : x s with
  | ok a s' =>
      rw [hx] at hrun hrun'
      exact ⟨hrun, hrun'⟩
  | error e s' =>
      rw [hx] at hrun hrun'
      exact ⟨hrun, hrun'⟩

theorem cond {c : Prop} [Decidable c] {x y : EStateM ε σ α}
    (hx : c → Spec P x Q E) (hy : ¬ c → Spec P y Q E) : Spec P (if c then x else y) Q E := by
  by_cases h : c
  · rw [if_pos h]
    exact hx h
  · rw [if_neg h]
    exact hy h

/-- A loop over a list, with an invariant of the part already done. -/
theorem loop {I : List α → σ → Prop} {f : α → EStateM ε σ PUnit} (l : List α)
    (h : ∀ front a rest, l = front ++ a :: rest →
      Spec (I front) (f a) (fun _ => I (front ++ [a])) E) :
    Spec (I []) (l.forM f) (fun _ => I l) E := by
  have hgo : ∀ rest front, l = front ++ rest →
      Spec (I front) (rest.forM f) (fun _ => I l) E := by
    intro rest
    induction rest with
    | nil =>
        intro front hl
        rw [List.append_nil] at hl
        subst hl
        exact ret fun _ hs => hs
    | cons a rest ih =>
        intro front hl
        show Spec (I front) (f a >>= fun _ => rest.forM f) (fun _ => I l) E
        refine seq (h front a rest hl) fun _ => ih (front ++ [a]) ?_
        rw [hl, List.append_assoc, List.singleton_append]
  exact hgo l [] rfl

/-- A fact that does not depend on the state. -/
theorem given {φ : Prop} {x : EStateM ε σ α} (h : φ → Spec P x Q E) :
    Spec (fun s => P s ∧ φ) x Q E := fun s hs => h hs.2 s hs.1

theorem change {f : σ → σ} {U : PUnit → σ → Prop} (h : ∀ s, P s → U ⟨⟩ (f s)) :
    Spec P (modify f : EStateM ε σ PUnit) U E :=
  fun s hs => h s hs

/-- A program that starts with a look at the state. -/
theorem look {f : σ → EStateM ε σ β} (h : ∀ t, P t → Run t (f t) R E) :
    Spec P (get >>= f) R E :=
  fun s hs => h s hs s rfl

end Spec

/-! ## Invariants -/

/-- The program keeps a property of the state, whether it returns or throws. -/
abbrev Keeps (I : σ → Prop) (x : EStateM ε σ α) : Prop := Spec I x (fun _ => I) (fun _ => I)

namespace Keeps

variable {I : σ → Prop}

theorem final {x : EStateM ε σ α} (h : Keeps I x) {s : σ} (hs : I s) : I (Effect.final x s) :=
  Spec.final_of fun t ht => h t (ht ▸ hs)

theorem ret (a : α) : Keeps I (pure a : EStateM ε σ α) := Spec.ret fun _ h => h

theorem raise (e : ε) : Keeps I (throw e : EStateM ε σ α) := Spec.raise fun _ h => h

theorem seq {x : EStateM ε σ α} {f : α → EStateM ε σ β} (hx : Keeps I x)
    (hf : ∀ a, Keeps I (f a)) : Keeps I (x >>= f) := Spec.seq hx hf

theorem look {f : σ → EStateM ε σ β} (h : ∀ t, Keeps I (f t)) : Keeps I (get >>= f) :=
  fun s hs => h s s hs

theorem change {f : σ → σ} (h : ∀ s, I s → I (f s)) : Keeps I (modify f : EStateM ε σ PUnit) := h

theorem cond {c : Prop} [Decidable c] {x y : EStateM ε σ α} (hx : Keeps I x) (hy : Keeps I y) :
    Keeps I (if c then x else y) := Spec.cond (fun _ => hx) fun _ => hy

theorem loop {l : List α} {f : α → EStateM ε σ PUnit} (h : ∀ a ∈ l, Keeps I (f a)) :
    Keeps I (l.forM f) := by
  refine Spec.loop (I := fun _ => I) l ?_
  intro front a rest hl
  exact h a (hl ▸ List.mem_append_right _ List.mem_cons_self)

/-- A program that keeps every part of the state at what it is keeps every
    property of that part. -/
theorem of_part {τ : Type} {part : σ → τ} {x : EStateM ε σ α}
    (h : ∀ t, Keeps (fun s => part s = t) x) {J : τ → Prop} : Keeps (fun s => J (part s)) x := by
  intro s hs
  have hrun := h (part s) s rfl
  cases hx : x s with
  | ok a s' =>
      rw [hx] at hrun
      show J (part s')
      rw [hrun]
      exact hs
  | error e s' =>
      rw [hx] at hrun
      show J (part s')
      rw [hrun]
      exact hs

end Keeps
end Effect
end NixStore
