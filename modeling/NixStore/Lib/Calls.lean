/-
  NixStore.Lib.Calls

  Programs that jump and call.

  A program is at a point; from there it stops, goes on at another point, calls
  the program at a point and then goes on, or is stuck.  A call can end with an
  exception, which the caller swallows or passes on.  `Leads` is where a point
  leads, into calls and past those that are quiet.  A program comes to an end
  just when it is led neither to a point that is stuck, nor round in a circle,
  nor to ever new points (`terminates_iff`).
-/

import Mathlib.Order.WellFounded
import Mathlib.Logic.Relation
import Mathlib.Data.Set.Finite.Basic

namespace NixStore
namespace Calls

open Relation

/-- What a program does at a point. -/
inductive Step (ν ε σ : Type) where
  | stop (result : Except ε Unit)
  | jump (effect : σ → σ) (next : ν)
  | call (callee next : ν)
  | stuck

variable {ν ε σ : Type}

/-- The caller goes on after such a result. -/
def goesOn (swallows : ε → Bool) : Except ε Unit → Bool
  | .ok () => true
  | .error e => swallows e

/-- The program with so much fuel; none if it is not enough. -/
def run (step : ν → Step ν ε σ) (swallows : ε → Bool) : Nat → ν → σ → Option (σ × Except ε Unit)
  | 0, _, _ => none
  | fuel + 1, c, s =>
      match step c with
      | .stop result => some (s, result)
      | .jump effect next => run step swallows fuel next (effect s)
      | .call callee next =>
          match run step swallows fuel callee s with
          | none => none
          | some (s', result) =>
              if goesOn swallows result then run step swallows fuel next s'
              else some (s', result)
      | .stuck => none

variable {step : ν → Step ν ε σ} {swallows : ε → Bool}

/-- From here the program ends, and a caller goes on. -/
inductive Quiet (step : ν → Step ν ε σ) (swallows : ε → Bool) : ν → Prop where
  | stop {c : ν} {result : Except ε Unit} (hstep : step c = .stop result)
      (hresult : goesOn swallows result = true) : Quiet step swallows c
  | jump {c next : ν} {effect : σ → σ} (hstep : step c = .jump effect next)
      (hnext : Quiet step swallows next) : Quiet step swallows c
  | call {c callee next : ν} (hstep : step c = .call callee next)
      (hcallee : Quiet step swallows callee) (hnext : Quiet step swallows next) :
      Quiet step swallows c

/-- Where the program may be led next. -/
inductive Leads (step : ν → Step ν ε σ) (swallows : ε → Bool) : ν → ν → Prop where
  | jump {c next : ν} {effect : σ → σ} (hstep : step c = .jump effect next) :
      Leads step swallows c next
  | enter {c callee next : ν} (hstep : step c = .call callee next) :
      Leads step swallows c callee
  | past {c callee next : ν} (hstep : step c = .call callee next)
      (hcallee : Quiet step swallows callee) : Leads step swallows c next

/-- From a point to the points it leads to, in any number of steps. -/
abbrev Reaches (step : ν → Step ν ε σ) (swallows : ε → Bool) : ν → ν → Prop :=
  ReflTransGen (Leads step swallows)

/-- With some fuel the program comes to an end. -/
def Terminates (step : ν → Step ν ε σ) (swallows : ε → Bool) (c : ν) (s : σ) : Prop :=
  ∃ fuel r, run step swallows fuel c s = some r

/-- More fuel than enough gives the same result. -/
theorem run_mono {fuel more : Nat} {c : ν} {s : σ} {r : σ × Except ε Unit}
    (h : run step swallows fuel c s = some r) (hle : fuel ≤ more) :
    run step swallows more c s = some r := by
  induction fuel generalizing more c s r with
  | zero => cases h
  | succ fuel ih =>
      obtain ⟨more, rfl⟩ : ∃ k, more = k + 1 := ⟨more - 1, by omega⟩
      have hle' : fuel ≤ more := by omega
      rw [run] at h ⊢
      split at h
      · exact h
      · exact ih h hle'
      · split at h
        · cases h
        · next hcallee =>
          rw [ih hcallee hle']
          show (if _ then _ else _) = _
          split at h
          · next hgoes => rw [if_pos hgoes, ih h hle']
          · next hgoes => rw [if_neg hgoes, h]
      · cases h

/-- A quiet program ends, whatever it works on. -/
theorem Quiet.run {c : ν} (h : Quiet step swallows c) (s : σ) :
    ∃ fuel s' result, run step swallows fuel c s = some (s', result) ∧
      goesOn swallows result = true := by
  induction h generalizing s with
  | stop hstep hresult => exact ⟨1, s, _, by rw [Calls.run, hstep], hresult⟩
  | @jump c next effect hstep hnext ih =>
      obtain ⟨fuel, s', result, hrun, hgoes⟩ := ih (effect s)
      exact ⟨fuel + 1, s', result, by rw [Calls.run, hstep]; exact hrun, hgoes⟩
  | @call c callee next hstep hcallee hnext ihcallee ihnext =>
      obtain ⟨fuel, s', result, hrun, hgoes⟩ := ihcallee s
      obtain ⟨fuel', s'', result', hrun', hgoes'⟩ := ihnext s'
      refine ⟨max fuel fuel' + 1, s'', result', ?_, hgoes'⟩
      rw [Calls.run, hstep]
      show (match Calls.run step swallows (max fuel fuel') callee s with
        | none => none
        | some (s', result) => _) = _
      rw [run_mono hrun (Nat.le_max_left _ _)]
      show (if _ then _ else _) = _
      rw [if_pos hgoes]
      exact run_mono hrun' (Nat.le_max_right _ _)

/-- A program that ends so that a caller goes on is quiet. -/
theorem quiet_of_run {fuel : Nat} {c : ν} {s s' : σ} {result : Except ε Unit}
    (h : run step swallows fuel c s = some (s', result)) (hgoes : goesOn swallows result = true) :
    Quiet step swallows c := by
  induction fuel generalizing c s s' result with
  | zero => cases h
  | succ fuel ih =>
      rw [run] at h
      split at h
      · next hstep =>
        cases h
        exact Quiet.stop hstep hgoes
      · next hstep => exact Quiet.jump hstep (ih h hgoes)
      · next callee next hstep =>
        split at h
        · cases h
        · next hcallee =>
          split at h
          · next hquiet => exact Quiet.call hstep (ih hcallee hquiet) (ih h hgoes)
          · next hloud =>
            cases h
            exact absurd hgoes hloud
      · cases h

/-- A program that ends is not stuck, and ends from wherever it may be led,
    with less fuel. -/
theorem run_leads {fuel : Nat} {c : ν} {s : σ} {r : σ × Except ε Unit}
    (h : run step swallows (fuel + 1) c s = some r) :
    step c ≠ .stuck ∧
      ∀ d, Leads step swallows c d → ∃ s' r', run step swallows fuel d s' = some r' := by
  refine ⟨?_, ?_⟩
  · intro hstuck
    rw [run, hstuck] at h
    cases h
  · intro d hd
    cases hd with
    | jump hstep =>
        rw [run, hstep] at h
        exact ⟨_, _, h⟩
    | enter hstep =>
        rw [run, hstep] at h
        dsimp only at h
        split at h
        · cases h
        · next hcallee => exact ⟨_, _, hcallee⟩
    | past hstep hquiet =>
        rw [run, hstep] at h
        dsimp only at h
        split at h
        · cases h
        · next s' result hcallee =>
          -- the callee is quiet, and has one result
          obtain ⟨fuel', s'', result', hrun, hgoes⟩ := hquiet.run s
          have heq := run_mono hcallee (Nat.le_max_left fuel fuel')
          rw [run_mono hrun (Nat.le_max_right fuel fuel')] at heq
          cases heq
          rw [if_pos hgoes] at h
          exact ⟨_, _, h⟩

theorem acc_of_run {fuel : Nat} {c : ν} {s : σ} {r : σ × Except ε Unit}
    (h : run step swallows fuel c s = some r) : Acc (fun b a => Leads step swallows a b) c := by
  induction fuel generalizing c s r with
  | zero => cases h
  | succ fuel ih =>
      refine Acc.intro c fun d hd => ?_
      obtain ⟨s', r', hrun⟩ := (run_leads h).2 d hd
      exact ih hrun

/-- What ends is led to no point that is stuck. -/
theorem Terminates.reaches {c d : ν} {s : σ} (h : Terminates step swallows c s)
    (hcd : Reaches step swallows c d) : step d ≠ .stuck := by
  have hgo : ∃ s', Terminates step swallows d s' := by
    induction hcd with
    | refl => exact ⟨s, h⟩
    | tail _ hlead ih =>
        obtain ⟨s', fuel, r, hrun⟩ := ih
        cases fuel with
        | zero => cases hrun
        | succ fuel =>
            obtain ⟨s'', r', hrun'⟩ := (run_leads hrun).2 _ hlead
            exact ⟨s'', fuel, r', hrun'⟩
  obtain ⟨s', fuel, r, hrun⟩ := hgo
  cases fuel with
  | zero => cases hrun
  | succ fuel => exact (run_leads hrun).1

/-- A program that is led nowhere for ever, nor to a point that is stuck, ends. -/
theorem terminates_of_acc {c : ν} (h : Acc (fun b a => Leads step swallows a b) c)
    (hstuck : ∀ d, Reaches step swallows c d → step d ≠ .stuck) (s : σ) :
    Terminates step swallows c s := by
  induction h generalizing s with
  | intro c _ ih =>
      have hnext : ∀ d, Leads step swallows c d → ∀ s, Terminates step swallows d s :=
        fun d hd => ih d hd fun e he => hstuck e (he.head hd)
      cases hstep : step c with
      | stop result => exact ⟨1, (s, result), by rw [run, hstep]⟩
      | jump effect next =>
          obtain ⟨fuel, r, hrun⟩ := hnext next (Leads.jump hstep) (effect s)
          exact ⟨fuel + 1, r, by rw [run, hstep]; exact hrun⟩
      | stuck => exact absurd hstep (hstuck c ReflTransGen.refl)
      | call callee next =>
          obtain ⟨fuel, ⟨s', result⟩, hrun⟩ := hnext callee (Leads.enter hstep) s
          by_cases hgoes : goesOn swallows result = true
          · obtain ⟨fuel', r', hrun'⟩ :=
              hnext next (Leads.past hstep (quiet_of_run hrun hgoes)) s'
            refine ⟨max fuel fuel' + 1, r', ?_⟩
            rw [run, hstep]
            dsimp only
            rw [run_mono hrun (Nat.le_max_left _ _)]
            dsimp only
            rw [if_pos hgoes]
            exact run_mono hrun' (Nat.le_max_right _ _)
          · refine ⟨fuel + 1, (s', result), ?_⟩
            rw [run, hstep]
            dsimp only
            rw [hrun]
            exact if_neg hgoes

theorem terminates_iff_acc {c : ν} {s : σ} : Terminates step swallows c s ↔
    (∀ d, Reaches step swallows c d → step d ≠ .stuck) ∧
      Acc (fun b a => Leads step swallows a b) c := by
  constructor
  · intro h
    obtain ⟨fuel, r, hrun⟩ := h
    exact ⟨fun d hd => Terminates.reaches ⟨fuel, r, hrun⟩ hd, acc_of_run hrun⟩
  · rintro ⟨hstuck, hacc⟩
    exact terminates_of_acc hacc hstuck s

-- ============================================================================
-- Circles, and ever new points
-- ============================================================================

/-- The program is led from point to point, for ever, and to none twice. -/
def Wanders (step : ν → Step ν ε σ) (swallows : ε → Bool) (c : ν) : Prop :=
  ∃ f : ℕ → ν, f 0 = c ∧ Function.Injective f ∧ ∀ n, Leads step swallows (f n) (f (n + 1))

/-- The points of a chain, from an earlier to a later one. -/
theorem chain_transGen {f : ℕ → ν} (hf : ∀ n, Leads step swallows (f n) (f (n + 1))) {m n : ℕ}
    (h : m < n) : TransGen (Leads step swallows) (f m) (f n) := by
  induction n with
  | zero => omega
  | succ n ih =>
      rcases Nat.lt_succ_iff_lt_or_eq.mp h with hlt | rfl
      · exact (ih hlt).tail (hf n)
      · exact TransGen.single (hf m)

/-- Nothing that is led nowhere for ever is led round in a circle. -/
theorem no_circle {c d : ν} (h : Acc (fun b a => Leads step swallows a b) c)
    (hcd : Reaches step swallows c d) : ¬ TransGen (Leads step swallows) d d := by
  have hd : Acc (fun b a => Leads step swallows a b) d := by
    induction hcd with
    | refl => exact h
    | tail _ hlead ih => exact ih.inv hlead
  have hirrefl : ∀ a, Acc (TransGen fun b a => Leads step swallows a b) a →
      ¬ TransGen (fun b a => Leads step swallows a b) a a := by
    intro a ha
    induction ha with
    | intro a _ ih => exact fun hcircle => ih a hcircle hcircle
  exact fun hcircle => hirrefl d hd.transGen (transGen_swap.mpr hcircle)

/-- A program comes to an end just when it is not led to a point that is stuck,
    nor round in a circle, nor to ever new points. -/
theorem terminates_iff {c : ν} {s : σ} : Terminates step swallows c s ↔
    (∀ d, Reaches step swallows c d →
      step d ≠ .stuck ∧ ¬ TransGen (Leads step swallows) d d) ∧
    ¬ Wanders step swallows c := by
  rw [terminates_iff_acc]
  constructor
  · rintro ⟨hstuck, hacc⟩
    refine ⟨fun d hd => ⟨hstuck d hd, no_circle hacc hd⟩, ?_⟩
    rintro ⟨f, hf, -, hlead⟩
    exact not_acc_iff_exists_descending_chain.mpr ⟨f, hf, hlead⟩ hacc
  · rintro ⟨hpoints, hwander⟩
    refine ⟨fun d hd => (hpoints d hd).1, ?_⟩
    by_contra hacc
    obtain ⟨f, rfl, hlead⟩ := not_acc_iff_exists_descending_chain.mp hacc
    -- a chain for ever comes back to one of its points, or has ever new ones
    have hreach : ∀ n, Reaches step swallows (f 0) (f n) := by
      intro n
      induction n with
      | zero => exact ReflTransGen.refl
      | succ n ih => exact ih.tail (hlead n)
    apply hwander
    refine ⟨f, rfl, ?_, hlead⟩
    intro m n heq
    rcases Nat.lt_trichotomy m n with hlt | hmn | hgt
    · have hcircle := chain_transGen hlead hlt
      rw [← heq] at hcircle
      exact absurd hcircle (hpoints _ (hreach m)).2
    · exact hmn
    · have hcircle := chain_transGen hlead hgt
      rw [heq] at hcircle
      exact absurd hcircle (hpoints _ (hreach n)).2

/-- From finitely many points there are not ever new ones. -/
theorem not_wanders {c : ν} (h : {d | Reaches step swallows c d}.Finite) :
    ¬ Wanders step swallows c := by
  rintro ⟨f, rfl, hinj, hlead⟩
  have hreach : ∀ n, f n ∈ {d | Reaches step swallows (f 0) d} := by
    intro n
    induction n with
    | zero => exact ReflTransGen.refl
    | succ n ih => exact ReflTransGen.tail ih (hlead n)
  exact Set.infinite_of_injective_forall_mem hinj hreach h

end Calls
end NixStore
