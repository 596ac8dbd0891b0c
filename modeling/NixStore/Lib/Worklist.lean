/-
  NixStore.Lib.Worklist

  The queue of a graph search in which every item is queued once.

  `visited` holds the items that have been queued, `todo` those that are still
  in the queue.  What has left the queue is `expanded`; it grows with each
  step, so a bound on the size of finite sets of items bounds a search.
-/

import NixStore.Lib.OrderedSet
import Mathlib.Data.Finset.Card
import Mathlib.Logic.Relation

set_option linter.unusedSectionVars false

namespace NixStore
namespace Worklist

open OrderedSet Relation

variable {α : Type} [LinearOrder α] [DecidableEq α]

/-- The queued items are distinct and have been visited. -/
structure WellQueued (visited : Finset α) (todo : List α) : Prop where
  nodup : todo.Nodup
  queued : ∀ a ∈ todo, a ∈ visited

/-- The items that have left the queue. -/
def expanded (visited : Finset α) (todo : List α) : Finset α := visited.filter (· ∉ todo)

variable {visited : Finset α} {todo : List α} {a b : α}

theorem mem_expanded : a ∈ expanded visited todo ↔ a ∈ visited ∧ a ∉ todo := Finset.mem_filter

theorem expanded_nil : expanded visited [] = visited := by
  ext a
  rw [mem_expanded]
  exact and_iff_left List.not_mem_nil

theorem wellQueued_start (a : α) : WellQueued {a} [a] where
  nodup := List.nodup_singleton a
  queued := fun _ hb => Finset.mem_singleton.mpr (List.mem_singleton.mp hb)

theorem expanded_start (a : α) : expanded {a} [a] = ∅ := by
  ext b
  rw [mem_expanded, Finset.mem_singleton, List.mem_singleton]
  exact iff_of_false (fun h => h.2 h.1) (Finset.notMem_empty b)

/-- Taking an item out of the queue. -/
theorem WellQueued.pop (h : WellQueued visited (a :: todo)) : WellQueued visited todo where
  nodup := (List.nodup_cons.mp h.nodup).2
  queued := fun b hb => h.queued b (List.mem_cons_of_mem _ hb)

theorem WellQueued.mem_expanded_pop (h : WellQueued visited (a :: todo)) :
    b ∈ expanded visited todo ↔ b = a ∨ b ∈ expanded visited (a :: todo) := by
  rw [mem_expanded, mem_expanded, List.mem_cons, not_or]
  constructor
  · rintro ⟨hb, htodo⟩
    by_cases heq : b = a
    · exact .inl heq
    · exact .inr ⟨hb, heq, htodo⟩
  · rintro (rfl | ⟨hb, -, htodo⟩)
    · exact ⟨h.queued b List.mem_cons_self, (List.nodup_cons.mp h.nodup).1⟩
    · exact ⟨hb, htodo⟩

theorem WellQueued.card_pop (h : WellQueued visited (a :: todo)) :
    (expanded visited todo).card = (expanded visited (a :: todo)).card + 1 := by
  have hinsert : expanded visited todo = insert a (expanded visited (a :: todo)) := by
    ext b
    rw [h.mem_expanded_pop, Finset.mem_insert]
  rw [hinsert, Finset.card_insert_of_notMem]
  exact fun hmem => (mem_expanded.mp hmem).2 List.mem_cons_self

/-- Queueing the new items of a set. -/
theorem WellQueued.enqueue (h : WellQueued visited todo) (s : Finset α) :
    WellQueued (visited ∪ s) (todo ++ inOrder (s \ visited)) where
  nodup := by
    refine List.nodup_append.mpr ⟨h.nodup, nodup_inOrder _, ?_⟩
    rintro b hb _ hc rfl
    exact (Finset.mem_sdiff.mp (mem_inOrder.mp hc)).2 (h.queued b hb)
  queued := by
    intro b hb
    rcases List.mem_append.mp hb with hb | hb
    · exact Finset.mem_union_left _ (h.queued b hb)
    · exact Finset.mem_union_right _ (Finset.mem_sdiff.mp (mem_inOrder.mp hb)).1

theorem expanded_enqueue (s : Finset α) :
    expanded (visited ∪ s) (todo ++ inOrder (s \ visited)) = expanded visited todo := by
  ext b
  rw [mem_expanded, mem_expanded, List.mem_append, mem_inOrder, Finset.mem_union,
    Finset.mem_sdiff, not_or, not_and_not_right]
  constructor
  · rintro ⟨hb | hb, htodo, hs⟩
    · exact ⟨hb, htodo⟩
    · exact ⟨hs hb, htodo⟩
  · rintro ⟨hb, htodo⟩
    exact ⟨.inl hb, htodo, fun _ => hb⟩

/-- A search has a step left for every item that has not left the queue. -/
def Bounded (limit bound : Nat) (visited : Finset α) (todo : List α) : Prop :=
  limit < bound + (expanded visited todo).card

theorem bounded_start (limit : Nat) (a : α) : Bounded limit (limit + 1) {a} [a] := by
  unfold Bounded
  omega

theorem Bounded.ne_zero {limit bound : Nat} (hcard : ∀ s : Finset α, s.card ≤ limit)
    (h : Bounded limit bound visited todo) : bound ≠ 0 := by
  have hle := hcard (expanded visited todo)
  unfold Bounded at h
  omega

theorem Bounded.pop {limit bound : Nat} (hq : WellQueued visited (a :: todo))
    (h : Bounded limit (bound + 1) visited (a :: todo)) : Bounded limit bound visited todo := by
  have hcard := hq.card_pop
  unfold Bounded at h ⊢
  omega

theorem Bounded.enqueue {limit bound : Nat} (h : Bounded limit bound visited todo) (s : Finset α) :
    Bounded limit bound (visited ∪ s) (todo ++ inOrder (s \ visited)) := by
  unfold Bounded
  rw [expanded_enqueue]
  exact h

/-- A set that contains an item and the successors of its members contains what
    the item reaches. -/
theorem mem_of_reaches {r : α → α → Prop} {s : Finset α} (hclosed : ∀ x ∈ s, ∀ y, r x y → y ∈ s)
    (ha : a ∈ s) (h : ReflTransGen r a b) : b ∈ s := by
  induction h with
  | refl => exact ha
  | tail _ hxy ih => exact hclosed _ ih _ hxy

end Worklist
end NixStore
