/-
  NixStore.Lib.LexOrder

  Lists in lexicographic order, and the first element of an ascending list
  that is not below a bound.

  What lies between a list and one of its continuations is a continuation of
  it (`prefix_of_between`).  This is what makes a range of an ordered index out
  of everything that starts with the same text.
-/

import Mathlib.Data.List.Lex
import Mathlib.Order.Lattice

namespace NixStore
namespace LexOrder

section Lists

variable {α : Type} [LinearOrder α]

theorem cons_lt_cons {a b : α} {s t : List α} : a :: s < b :: t ↔ a < b ∨ a = b ∧ s < t :=
  List.cons_lt_cons_iff

theorem append_lt_append (u : List α) {v w : List α} : u ++ v < u ++ w ↔ v < w := by
  induction u with
  | nil => rfl
  | cons a u ih =>
      rw [List.cons_append, List.cons_append, cons_lt_cons, ih]
      simp only [lt_irrefl, false_or, true_and]

/-- A list is below all its continuations. -/
theorem lt_append {u w : List α} (h : w ≠ []) : u < u ++ w := by
  obtain ⟨a, w, rfl⟩ := List.exists_cons_of_ne_nil h
  have hnil : u ++ [] < u ++ a :: w := (append_lt_append u).mpr (List.nil_lt_cons a w)
  rwa [List.append_nil] at hnil

/-- Between a list and a continuation of it there are only continuations. -/
theorem prefix_of_between {u v w : List α} (hlow : ¬ v < u) (hhigh : ¬ u ++ w < v) : u <+: v := by
  induction u generalizing v with
  | nil => exact List.nil_prefix
  | cons a u ih =>
      cases v with
      | nil => exact absurd (List.nil_lt_cons a u) hlow
      | cons b v =>
          rw [cons_lt_cons, not_or, not_and] at hlow
          rw [List.cons_append, cons_lt_cons, not_or, not_and] at hhigh
          have hab : a = b := le_antisymm (not_lt.mp hlow.1) (not_lt.mp hhigh.1)
          subst hab
          exact (List.prefix_cons_inj a).mpr (ih (hlow.2 rfl) (hhigh.2 rfl))

end Lists

section Bounds

variable {α : Type} {r : α → α → Prop} {below : α → Bool} {l : List α} {x : α}

/-- The first element that is not below the bound comes before all others that
    are not. -/
theorem find?_first (hl : l.Pairwise r) (h : l.find? (fun a => !below a) = some x) :
    x ∈ l ∧ below x = false ∧ ∀ y ∈ l, below y = false → y = x ∨ r x y := by
  obtain ⟨hx, front, more, rfl, hfront⟩ := List.find?_eq_some_iff_append.mp h
  refine ⟨List.mem_append_right _ List.mem_cons_self, by simpa using hx, ?_⟩
  intro y hy hbelow
  rcases List.mem_append.mp hy with hy | hy
  · have hnot := hfront y hy
    rw [hbelow] at hnot
    cases hnot
  · rcases List.mem_cons.mp hy with rfl | hy
    · exact Or.inl rfl
    · exact Or.inr ((List.pairwise_cons.mp (List.pairwise_append.mp hl).2.1).1 y hy)

/-- There is a first element when some element is not below the bound. -/
theorem exists_find? {y : α} (hy : y ∈ l) (hbelow : below y = false) :
    ∃ x, l.find? (fun a => !below a) = some x := by
  apply Option.isSome_iff_exists.mp
  rw [List.find?_isSome]
  exact ⟨y, hy, by rw [hbelow]; rfl⟩

end Bounds

end LexOrder
end NixStore
