/-
  NixStore.Lib.OrderedSet

  Finite sets read in ascending order, as an ordered tree set is iterated.

  `Finset.sort` says the same but goes through merge sort, which does not
  reduce; `inOrder` sorts by insertion, so that closed sets can be evaluated.
-/

import Mathlib.Data.Finset.Sort
import Mathlib.Data.List.Sort

namespace NixStore
namespace OrderedSet

variable {α : Type} [LinearOrder α]

/-- The elements of a set in ascending order. -/
def inOrder (s : Finset α) : List α :=
  Quot.liftOn s.val (List.insertionSort (· ≤ ·)) fun l l' h =>
    List.Perm.eq_of_pairwise' (List.pairwise_insertionSort (· ≤ ·) l)
      (List.pairwise_insertionSort (· ≤ ·) l')
      (((List.perm_insertionSort (· ≤ ·) l).trans h).trans
        (List.perm_insertionSort (· ≤ ·) l').symm)

theorem coe_inOrder (s : Finset α) : (inOrder s : Multiset α) = s.val := by
  obtain ⟨val, nodup⟩ := s
  induction val using Quot.inductionOn with
  | h l => exact Quot.sound (List.perm_insertionSort (· ≤ ·) l)

@[simp] theorem mem_inOrder {s : Finset α} {a : α} : a ∈ inOrder s ↔ a ∈ s := by
  rw [← Multiset.mem_coe, coe_inOrder, Finset.mem_val]

theorem nodup_inOrder (s : Finset α) : (inOrder s).Nodup := by
  rw [← Multiset.coe_nodup, coe_inOrder]
  exact s.nodup

@[simp] theorem length_inOrder (s : Finset α) : (inOrder s).length = s.card := by
  rw [← Multiset.coe_card, coe_inOrder, Finset.card_def]

@[simp] theorem toFinset_inOrder [DecidableEq α] (s : Finset α) : (inOrder s).toFinset = s := by
  ext a
  rw [List.mem_toFinset, mem_inOrder]

@[simp] theorem inOrder_eq_nil {s : Finset α} : inOrder s = [] ↔ s = ∅ := by
  rw [List.eq_nil_iff_forall_not_mem, Finset.eq_empty_iff_forall_notMem]
  simp only [mem_inOrder]

end OrderedSet
end NixStore
