/-
  NixStore.Lib.Emplace

  Ordered maps filled in any order.

  `emplace` puts a pair at its place (`emplace_perm`, `emplace_ascending`) and
  refuses only a key that is there (`emplace_eq_none`).  A map filled with pairs
  of different keys is the one ascending list of them (`emplaceAll_of_perm`).
-/

import NixStore.Lib.SortedMap
import Mathlib.Data.List.Sort

namespace NixStore
namespace SortedMap

open Std

variable {κ β : Type} [DecidableEq κ] [LT κ] [DecidableLT κ]

theorem emplace_perm {k : κ} {v : β} {m m' : List (κ × β)} (h : emplace k v m = some m') :
    m'.Perm ((k, v) :: m) := by
  induction m generalizing m' with
  | nil =>
      cases h
      exact List.Perm.refl _
  | cons e rest ih =>
      rw [emplace] at h
      split at h
      · cases h
        exact List.Perm.refl _
      · split at h
        · cases h
        · obtain ⟨rest', hrest, rfl⟩ := Option.map_eq_some_iff.mp h
          exact ((ih hrest).cons _).trans (List.Perm.swap _ _ _)

/-- Only a key that is there is refused. -/
theorem emplace_eq_none {k : κ} {v : β} {m : List (κ × β)} (h : emplace k v m = none) :
    (find? k m).isSome := by
  induction m with
  | nil => cases h
  | cons e rest ih =>
      rw [emplace] at h
      rw [find?]
      split at h
      · cases h
      · split at h
        · next hk => rw [if_pos hk.symm]; rfl
        · next hk =>
          rw [if_neg fun heq => hk heq.symm]
          exact ih (Option.map_eq_none_iff.mp h)

/-- A pair that is changed after it was put in might have been put in changed. -/
theorem emplace_adjust {k : κ} {v : β} {m m' : List (κ × β)} (g : β → β)
    (h : emplace k v m = some m') : emplace k (g v) m = some (adjust k g m') := by
  induction m generalizing m' with
  | nil =>
      cases h
      simp [emplace, adjust]
  | cons e rest ih =>
      rw [emplace] at h ⊢
      split at h
      · next hlt =>
        cases h
        simp [hlt, adjust]
      · next hlt =>
        split at h
        · cases h
        · next hk =>
          obtain ⟨rest', hrest, rfl⟩ := Option.map_eq_some_iff.mp h
          have hk' : e.1 ≠ k := fun heq => hk heq.symm
          simp [hlt, hk, hk', adjust, ih hrest]

theorem find?_emplace {k : κ} {v : β} {m m' : List (κ × β)} (h : emplace k v m = some m') :
    find? k m' = some v := by
  induction m generalizing m' with
  | nil =>
      cases h
      simp [find?]
  | cons e rest ih =>
      rw [emplace] at h
      split at h
      · cases h
        simp [find?]
      · split at h
        · cases h
        · next hk =>
          obtain ⟨rest', hrest, rfl⟩ := Option.map_eq_some_iff.mp h
          have hk' : e.1 ≠ k := fun heq => hk heq.symm
          simp [find?, hk', ih hrest]

/-- Put pairs into a map, one after another. -/
def emplaceAll : List (κ × β) → List (κ × β) → Option (List (κ × β))
  | [], m => some m
  | (k, v) :: l, m => (emplace k v m).bind (emplaceAll l)

theorem emplaceAll_perm {l m m' : List (κ × β)} (h : emplaceAll l m = some m') :
    m'.Perm (l ++ m) := by
  induction l generalizing m with
  | nil =>
      cases h
      exact List.Perm.refl _
  | cons e l ih =>
      obtain ⟨m₁, he, hl⟩ := Option.bind_eq_some_iff.mp h
      exact (ih hl).trans (((emplace_perm he).append_left l).trans List.perm_middle)

/-- Pairs of different keys, none of them there, are not refused. -/
theorem exists_emplaceAll {l m : List (κ × β)} (h : ((l ++ m).map (·.1)).Nodup) :
    ∃ m', emplaceAll l m = some m' := by
  induction l generalizing m with
  | nil => exact ⟨m, rfl⟩
  | cons e l ih =>
      obtain ⟨k, v⟩ := e
      rw [List.cons_append, List.map_cons, List.nodup_cons] at h
      cases he : emplace k v m with
      | none =>
          refine absurd ?_ h.1
          rw [List.map_append]
          exact List.mem_append_right _ (isSome_find?.mp (emplace_eq_none he))
      | some m₁ =>
          have hperm : ((l ++ m₁).map (·.1)).Perm (k :: (l ++ m).map (·.1)) :=
            (((emplace_perm he).append_left l).trans List.perm_middle).map (·.1)
          obtain ⟨m', hm'⟩ := ih (hperm.nodup_iff.mpr (List.nodup_cons.mpr h))
          exact ⟨m', by rw [emplaceAll, he]; exact hm'⟩

section Ordered

variable [LE κ] [IsLinearOrder κ] [LawfulOrderLT κ]

theorem emplace_ascending {k : κ} {v : β} {m m' : List (κ × β)} (hm : Ascending m)
    (h : emplace k v m = some m') : Ascending m' := by
  induction m generalizing m' with
  | nil =>
      cases h
      exact List.pairwise_singleton _ _
  | cons e rest ih =>
      obtain ⟨hhead, hrest⟩ := List.pairwise_cons.mp hm
      rw [emplace] at h
      split at h
      · next hlt =>
        cases h
        refine List.pairwise_cons.mpr ⟨?_, hm⟩
        exact List.forall_mem_cons.mpr ⟨hlt, fun e' he' => lt_trans hlt (hhead e' he')⟩
      · next hlt =>
        split at h
        · cases h
        · next hk =>
          obtain ⟨rest', hrest', rfl⟩ := Option.map_eq_some_iff.mp h
          have hek : e.1 < k := by
            rcases lt_trichotomy e.1 k with h' | h' | h'
            · exact h'
            · exact absurd h'.symm hk
            · exact absurd h' hlt
          refine List.pairwise_cons.mpr ⟨fun e' he' => ?_, ih hrest hrest'⟩
          rcases List.mem_cons.mp ((emplace_perm hrest').mem_iff.mp he') with rfl | hin
          · exact hek
          · exact hhead e' hin

theorem emplaceAll_ascending {l m m' : List (κ × β)} (hm : Ascending m)
    (h : emplaceAll l m = some m') : Ascending m' := by
  induction l generalizing m with
  | nil =>
      cases h
      exact hm
  | cons e l ih =>
      obtain ⟨m₁, he, hl⟩ := Option.bind_eq_some_iff.mp h
      exact ih (emplace_ascending hm he) hl

omit [DecidableEq κ] [DecidableLT κ] [Std.IsLinearOrder κ] in
theorem Ascending.nodup_keys {m : List (κ × β)} (h : Ascending m) : (m.map (·.1)).Nodup := by
  rw [List.Nodup, List.pairwise_map]
  refine h.imp ?_
  intro a b hlt heq
  rw [heq] at hlt
  exact Std.lt_irrefl hlt

/-- In whatever order a map is filled, it ends as the same ascending list. -/
theorem emplaceAll_of_perm {l m : List (κ × β)} (hm : Ascending m) (h : l.Perm m) :
    emplaceAll l [] = some m := by
  have hkeys : (l.map (·.1)).Nodup := (h.map (·.1)).nodup_iff.mpr hm.nodup_keys
  rw [← List.append_nil l] at hkeys
  obtain ⟨m', hm'⟩ := exists_emplaceAll hkeys
  have hperm := emplaceAll_perm hm'
  rw [List.append_nil] at hperm
  have hasc : Ascending m' := emplaceAll_ascending List.Pairwise.nil hm'
  have heq := (hperm.trans h).eq_of_pairwise
    (fun a b _ _ hab hba => absurd (Std.lt_trans hab hba) Std.lt_irrefl) hasc hm
  rw [hm', heq]

end Ordered

end SortedMap
end NixStore
