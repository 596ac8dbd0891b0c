/-
  NixStore.Lib.SortedMap

  Ordered maps as association lists in ascending key order: the value an
  ordered tree map has when it is read from begin to end.

  `emplace` inserts a pair unless the key is taken, `adjust` changes the value
  under a key in place.  Maps filled in ascending key order grow at their end
  (`emplace_of_forall_lt`), which is how a stream that is checked to be sorted
  fills them.
-/

import Mathlib.Data.List.Basic
import Mathlib.Data.List.Nodup

namespace NixStore
namespace SortedMap

open Std

variable {κ β : Type} [DecidableEq κ]

/-- Change the value under a key, if there is one. -/
def adjust (k : κ) (g : β → β) : List (κ × β) → List (κ × β)
  | [] => []
  | (k', v') :: rest => if k' = k then (k', g v') :: rest else (k', v') :: adjust k g rest

/-- In a list with unique keys, a key leads to the element that has it. -/
theorem find?_key {α : Type} {f : α → κ} {l : List α} (h : (l.map f).Nodup) {k : κ} {a : α} :
    (l.find? fun x => f x = k) = some a ↔ a ∈ l ∧ f a = k := by
  constructor
  · intro hfind
    exact ⟨List.mem_of_find?_eq_some hfind, by simpa using List.find?_some hfind⟩
  · rintro ⟨hmem, rfl⟩
    cases hfind : l.find? fun x => f x = f a with
    | none =>
        have := List.find?_eq_none.mp hfind a hmem
        simp at this
    | some b =>
        have hb : f b = f a := by simpa using List.find?_some hfind
        rw [List.inj_on_of_nodup_map h (List.mem_of_find?_eq_some hfind) hmem hb]

/-- The value under a key. -/
def find? (k : κ) : List (κ × β) → Option β
  | [] => none
  | (k', v') :: rest => if k' = k then some v' else find? k rest

theorem find?_eq_none {k : κ} {m : List (κ × β)} (h : ∀ e ∈ m, e.1 ≠ k) :
    find? k m = none := by
  induction m with
  | nil => rfl
  | cons e rest ih =>
      have hne : e.1 ≠ k := h e List.mem_cons_self
      simp only [find?, hne, if_false]
      exact ih fun e' he' => h e' (List.mem_cons_of_mem _ he')

theorem isSome_find? {k : κ} {m : List (κ × β)} : (find? k m).isSome ↔ k ∈ m.map Prod.fst := by
  induction m with
  | nil => exact iff_of_false Bool.false_ne_true List.not_mem_nil
  | cons e rest ih =>
      rw [find?, List.map_cons, List.mem_cons]
      split
      · next hk => exact iff_of_true rfl (.inl hk.symm)
      · next hk => exact ih.trans (or_iff_right fun heq => hk heq.symm).symm

/-- A key that is only at the end is found there. -/
theorem find?_append_singleton {k : κ} {v : β} {m : List (κ × β)} (h : ∀ e ∈ m, e.1 ≠ k) :
    find? k (m ++ [(k, v)]) = some v := by
  induction m with
  | nil => simp [find?]
  | cons e rest ih =>
      have hne : e.1 ≠ k := h e List.mem_cons_self
      simp only [List.cons_append, find?, hne, if_false]
      exact ih fun e' he' => h e' (List.mem_cons_of_mem _ he')

theorem adjust_append_singleton {k : κ} {v : β} {g : β → β} {m : List (κ × β)}
    (h : ∀ e ∈ m, e.1 ≠ k) : adjust k g (m ++ [(k, v)]) = m ++ [(k, g v)] := by
  induction m with
  | nil => simp [adjust]
  | cons e rest ih =>
      have hne : e.1 ≠ k := h e List.mem_cons_self
      simp only [List.cons_append, adjust, hne, if_false]
      rw [ih fun e' he' => h e' (List.mem_cons_of_mem _ he')]

theorem find?_adjust_self {k : κ} {g : β → β} {m : List (κ × β)} {v : β}
    (h : find? k m = some v) : find? k (adjust k g m) = some (g v) := by
  induction m with
  | nil => cases h
  | cons e rest ih =>
      by_cases hk : e.1 = k
      · simp only [find?, hk, if_true, Option.some.injEq] at h
        simp [adjust, find?, hk, h]
      · simp only [find?, hk, if_false] at h
        simp only [adjust, hk, if_false, find?]
        exact ih h

theorem adjust_adjust (k : κ) (g h : β → β) (m : List (κ × β)) :
    adjust k g (adjust k h m) = adjust k (g ∘ h) m := by
  induction m with
  | nil => rfl
  | cons e rest ih =>
      by_cases hk : e.1 = k
      · simp [adjust, hk]
      · simp [adjust, hk, ih]

/-- Two changes that agree on the value found are the same change. -/
theorem adjust_congr {k : κ} {g h : β → β} {m : List (κ × β)} {v : β}
    (hv : find? k m = some v) (hgh : g v = h v) : adjust k g m = adjust k h m := by
  induction m with
  | nil => rfl
  | cons e rest ih =>
      by_cases hk : e.1 = k
      · simp only [find?, hk, if_true, Option.some.injEq] at hv
        simp [adjust, hk, hv, hgh]
      · simp only [find?, hk, if_false] at hv
        simp only [adjust, hk, if_false, ih hv]

/-! ## Insertion in key order -/

section Ordered

variable [LT κ] [DecidableLT κ]

/-- Insert a pair at its place, or `none` when the key is already there. -/
def emplace (k : κ) (v : β) : List (κ × β) → Option (List (κ × β))
  | [] => some [(k, v)]
  | (k', v') :: rest =>
      if k < k' then some ((k, v) :: (k', v') :: rest)
      else if k = k' then none
      else (emplace k v rest).map ((k', v') :: ·)

/-- The keys ascend strictly: the invariant of an ordered map. -/
def Ascending (m : List (κ × β)) : Prop := m.Pairwise fun a b => a.1 < b.1

variable [LE κ] [IsLinearOrder κ] [LawfulOrderLT κ]

/-- Inserting above every key appends. -/
theorem emplace_of_forall_lt {k : κ} {v : β} {m : List (κ × β)} (h : ∀ e ∈ m, e.1 < k) :
    emplace k v m = some (m ++ [(k, v)]) := by
  induction m with
  | nil => rfl
  | cons e rest ih =>
      have he : e.1 < k := h e List.mem_cons_self
      have hnlt : ¬ k < e.1 := fun hlt => lt_irrefl (lt_trans hlt he)
      have hne : k ≠ e.1 := fun heq => lt_irrefl (heq ▸ he)
      simp only [emplace, hnlt, hne, if_false, List.cons_append]
      rw [ih fun e' he' => h e' (List.mem_cons_of_mem _ he')]
      rfl

omit [DecidableEq κ] [DecidableLT κ] [Std.IsLinearOrder κ] in
theorem ne_of_forall_lt {k : κ} {m : List (κ × β)} (h : ∀ e ∈ m, e.1 < k) :
    ∀ e ∈ m, e.1 ≠ k := fun e he heq => lt_irrefl (heq ▸ h e he)

end Ordered

end SortedMap
end NixStore
