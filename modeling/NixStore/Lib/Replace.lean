/-
  NixStore.Lib.Replace

  Lists in which one element is replaced by another.

  What is counted or summed over such a list changes by what the two elements
  contribute.  Sums are compared with both elements added crosswise, so that
  nothing is subtracted.
-/

import Mathlib.Algebra.GroupWithZero.Nat
import Mathlib.Data.List.Perm.Basic
import Mathlib.Algebra.BigOperators.Group.List.Basic

namespace NixStore
namespace Replace

variable {α : Type} {l : List α} {t : Nat} {a : α}

/-- Up to the order, an element stands in front of the others, and so does what
    replaces it. -/
theorem set_perm (h : l[t]? = some a) :
    ∃ rest, l.Perm (a :: rest) ∧ ∀ b, (l.set t b).Perm (b :: rest) := by
  obtain ⟨hlt, rfl⟩ := List.getElem?_eq_some_iff.mp h
  exact ⟨l.eraseIdx t, (List.getElem_cons_eraseIdx_perm hlt).symm,
    List.set_perm_cons_eraseIdx hlt⟩

theorem countP_set (h : l[t]? = some a) (p : α → Bool) (b : α) :
    (l.set t b).countP p + (if p a then 1 else 0) = l.countP p + if p b then 1 else 0 := by
  obtain ⟨rest, hold, hnew⟩ := set_perm h
  rw [hold.countP_eq, (hnew b).countP_eq, List.countP_cons, List.countP_cons]
  omega

theorem sum_map_set (h : l[t]? = some a) (f : α → Nat) (b : α) :
    ((l.set t b).map f).sum + f a = (l.map f).sum + f b := by
  obtain ⟨rest, hold, hnew⟩ := set_perm h
  rw [(hold.map f).sum_eq, ((hnew b).map f).sum_eq, List.map_cons, List.map_cons, List.sum_cons,
    List.sum_cons]
  omega

/-- Something is counted if it is found at a place. -/
theorem countP_pos_of_getElem? (h : l[t]? = some a) {p : α → Bool} (ha : p a = true) :
    0 < l.countP p := List.countP_pos_iff.mpr ⟨a, List.mem_of_getElem? h, ha⟩

end Replace
end NixStore
