/-
  NixStore.Lib.Acyclic

  Directed graphs without cycles, where an edge from a node to itself does not
  count as a cycle.

  A graph is a relation.  `Acyclic.extend` is the rule for graphs that grow
  over time: edges of an old graph and new ones have no cycle together if the
  old graph has none and no new edge can be closed.
-/

import Mathlib.Logic.Relation
import Mathlib.Data.List.Basic
import Mathlib.Order.WellFoundedSet

namespace NixStore

open Relation

variable {α β : Type}

/-- The edges of a graph that are not loops. -/
def ProperEdge (r : α → α → Prop) (a b : α) : Prop := r a b ∧ a ≠ b

/-- No node reaches itself along proper edges. -/
def Acyclic (r : α → α → Prop) : Prop := ∀ a, ¬ TransGen (ProperEdge r) a a

namespace Acyclic

/-- A graph that maps into an acyclic one without joining nodes. -/
theorem comap {r : α → α → Prop} {r' : β → β → Prop} {f : α → β} (hf : Function.Injective f)
    (hr : ∀ a b, r a b → r' (f a) (f b)) (h : Acyclic r') : Acyclic r := by
  intro a hcycle
  apply h (f a)
  refine TransGen.lift f ?_ a a hcycle
  rintro x y ⟨hxy, hne⟩
  exact ⟨hr x y hxy, fun heq => hne (hf heq)⟩

theorem mono {r r' : α → α → Prop} (hr : ∀ a b, r a b → r' a b) (h : Acyclic r') : Acyclic r :=
  comap Function.injective_id hr h

/-- A graph in two parts, with no edge that leaves the first one. -/
theorem of_parts {r : α → α → Prop} {V : α → Prop} (hclosed : ∀ a b, r a b → V a → V b)
    (hin : Acyclic fun a b => r a b ∧ V a) (hout : Acyclic fun a b => r a b ∧ ¬ V a) :
    Acyclic r := by
  intro a hcycle
  by_cases hVa : V a
  · have hgo : ∀ b, TransGen (ProperEdge r) a b →
        V b ∧ TransGen (ProperEdge fun a b => r a b ∧ V a) a b := by
      intro b hab
      induction hab with
      | single hab => exact ⟨hclosed _ _ hab.1 hVa, TransGen.single ⟨⟨hab.1, hVa⟩, hab.2⟩⟩
      | tail _ hbc ih =>
          exact ⟨hclosed _ _ hbc.1 ih.1, ih.2.tail ⟨⟨hbc.1, ih.1⟩, hbc.2⟩⟩
    exact hin a (hgo a hcycle).2
  · -- followed backwards, the cycle stays outside
    have hgo : ∀ x, TransGen (ProperEdge r) x a →
        ¬ V x ∧ TransGen (ProperEdge fun a b => r a b ∧ ¬ V a) x a := by
      intro x hxa
      induction hxa using TransGen.head_induction_on with
      | single hxa =>
          have hVx := fun hV => hVa (hclosed _ _ hxa.1 hV)
          exact ⟨hVx, TransGen.single ⟨⟨hxa.1, hVx⟩, hxa.2⟩⟩
      | head hxy _ ih =>
          have hVx := fun hV => ih.1 (hclosed _ _ hxy.1 hV)
          exact ⟨hVx, TransGen.head ⟨⟨hxy.1, hVx⟩, hxy.2⟩ ih.2⟩
    exact hout a (hgo a hcycle).2

/-- Edges that descend in some measure form no cycle. -/
theorem of_rank {r : α → α → Prop} (rank : α → Nat)
    (h : ∀ a b, r a b → a ≠ b → rank b < rank a) : Acyclic r := by
  have hlt : ∀ a b, TransGen (ProperEdge r) a b → rank b < rank a := by
    intro a b hab
    induction hab with
    | single hab => exact h _ _ hab.1 hab.2
    | tail _ hbc ih => exact Nat.lt_trans (h _ _ hbc.1 hbc.2) ih
  exact fun a hcycle => Nat.lt_irrefl _ (hlt a a hcycle)

/-- Among finitely many nodes, some node has no edge to another one of them. -/
theorem exists_sink {r : α → α → Prop} (h : Acyclic r) {s : Finset α} (hs : s.Nonempty) :
    ∃ a ∈ s, ∀ b ∈ s, r a b → a = b := by
  have hwf : WellFounded fun a b : s => TransGen (ProperEdge r) b.1 a.1 := by
    have : IsTrans s fun a b : s => TransGen (ProperEdge r) b.1 a.1 :=
      ⟨fun _ _ _ hab hbc => hbc.trans hab⟩
    have : Std.Irrefl fun a b : s => TransGen (ProperEdge r) b.1 a.1 := ⟨fun a => h a.1⟩
    exact Finite.wellFounded_of_trans_of_irrefl _
  obtain ⟨a, ha⟩ := hs
  obtain ⟨m, -, hm⟩ := hwf.has_min Set.univ ⟨⟨a, ha⟩, trivial⟩
  refine ⟨m.1, m.2, fun b hb hab => ?_⟩
  by_contra hne
  exact hm ⟨b, hb⟩ trivial (TransGen.single ⟨hab, hne⟩)

/-- Every edge of a cycle can be returned from. -/
theorem cycle_returns {r : α → α → Prop} {a : α} (h : TransGen r a a) :
    TransGen (fun x y => r x y ∧ ReflTransGen r y x) a a := by
  have hgo : ∀ b, TransGen r a b → ReflTransGen r b a →
      TransGen (fun x y => r x y ∧ ReflTransGen r y x) a b := by
    intro b hab
    induction hab with
    | single hab => exact fun hback => TransGen.single ⟨hab, hback⟩
    | tail hab hbc ih =>
        intro hback
        refine TransGen.tail (ih (hback.head hbc)) ⟨hbc, ?_⟩
        exact hback.trans hab.to_reflTransGen
  exact hgo a h ReflTransGen.refl

/-- A graph grown by new edges, none of which leads back to where it starts. -/
theorem extend {old new : α → α → Prop} (hold : Acyclic old)
    (hback : ∀ a b, new a b → ¬ old a b → a ≠ b →
      ¬ ReflTransGen (ProperEdge fun x y => old x y ∨ new x y) b a) :
    Acyclic fun a b => old a b ∨ new a b := by
  intro a hcycle
  refine hold a (TransGen.mono ?_ a a (cycle_returns hcycle))
  rintro x y ⟨⟨hxy, hne⟩, hyx⟩
  -- an edge that is returned from is an old one
  by_cases ho : old x y
  · exact ⟨ho, hne⟩
  · exact absurd hyx (hback x y (hxy.resolve_left ho) ho hne)

end Acyclic
end NixStore
