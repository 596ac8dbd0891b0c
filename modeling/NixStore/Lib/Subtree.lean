/-
  NixStore.Lib.Subtree

  What is below some entries of a directory, to a limited depth: the directories
  and the rest, the same inode as often as entries stand for it.

  `Ready` says that a subtree can be walked: it is no deeper than that, and no
  directory in it has two entries or is above itself.  Whoever removes entries
  from directories of one subtree (`Frame`) leaves the ones beside it alone
  (`Ready.frame`).
-/

import NixStore.Lib.Directories
import Mathlib.Data.List.Perm.Basic

namespace NixStore

namespace Inode

variable {ν τ α : Type} [DecidableEq ν]

theorem child_eq_some_of_nodup {i : Inode ν τ α} (h : (i.entries.map Prod.fst).Nodup) {name : ν}
    {j : Nat} : i.child name = some j ↔ (name, j) ∈ i.entries := by
  cases i with
  | directory l =>
      change SortedMap.find? name l = some j ↔ (name, j) ∈ l
      change (l.map Prod.fst).Nodup at h
      induction l with
      | nil => exact iff_of_false (fun h => by cases h) List.not_mem_nil
      | cons e l ih =>
          rw [List.map_cons, List.nodup_cons] at h
          rw [SortedMap.find?, List.mem_cons]
          split
          · next he =>
              constructor
              · intro hj
                cases hj
                exact Or.inl (by rw [← he])
              · rintro (heq | hmem)
                · rw [← heq]
                · exact absurd (List.mem_map_of_mem hmem) (he ▸ h.1)
          · next he =>
              rw [ih h.2]
              exact (or_iff_right fun heq => he (by rw [← heq])).symm
  | symlink _ | object _ => exact iff_of_false (fun h => by cases h) List.not_mem_nil

/-- A directory without entries. -/
theorem eq_directory_nil {i : Inode ν τ α} (hdir : i.isDirectory = true)
    (h : ∀ name, i.child name = none) : i = .directory [] := by
  cases i with
  | directory l =>
      cases l with
      | nil => rfl
      | cons e l =>
          have hfirst := h e.1
          change SortedMap.find? e.1 (e :: l) = none at hfirst
          rw [SortedMap.find?, if_pos rfl] at hfirst
          cases hfirst
  | symlink _ | object _ => cases hdir

end Inode

namespace Subtree

variable {ν τ α : Type} (fs : Inodes ν τ α)

/-- The directories at an inode and below. -/
def dirs : Nat → Nat → List Nat
  | 0, _ => []
  | depth + 1, i =>
      if (fs i).isDirectory then i :: (fs i).entries.flatMap fun e => dirs depth e.2 else []

/-- The other inodes. -/
def leaves : Nat → Nat → List Nat
  | 0, _ => []
  | depth + 1, i =>
      if (fs i).isDirectory then (fs i).entries.flatMap fun e => leaves depth e.2 else [i]

/-- Nothing is deeper. -/
def Fits : Nat → Nat → Prop
  | 0, _ => False
  | depth + 1, i => ∀ e ∈ (fs i).entries, Fits depth e.2

variable {fs} {fs' : Inodes ν τ α} {depth dir : Nat}

theorem isDirectory_of_mem_dirs {i x : Nat} (h : x ∈ dirs fs depth i) :
    (fs x).isDirectory = true := by
  induction depth generalizing i with
  | zero => cases h
  | succ depth ih =>
      rw [dirs] at h
      split at h
      · next hdir =>
          rcases List.mem_cons.mp h with rfl | hbelow
          · exact hdir
          · obtain ⟨e, -, he⟩ := List.mem_flatMap.mp hbelow
            exact ih he
      · cases h

theorem not_isDirectory_of_mem_leaves {i x : Nat} (h : x ∈ leaves fs depth i) :
    (fs x).isDirectory = false := by
  induction depth generalizing i with
  | zero => cases h
  | succ depth ih =>
      rw [leaves] at h
      split at h
      · obtain ⟨e, -, he⟩ := List.mem_flatMap.mp h
        exact ih he
      · next hdir =>
          rw [List.mem_singleton.mp h]
          simpa using hdir

/-- What is below an inode is up to the inodes there. -/
theorem agree {i : Nat} (hdirs : ∀ x ∈ dirs fs depth i, fs' x = fs x)
    (hleaves : ∀ x ∈ leaves fs depth i, fs' x = fs x) :
    dirs fs' depth i = dirs fs depth i ∧ leaves fs' depth i = leaves fs depth i ∧
      (Fits fs' depth i ↔ Fits fs depth i) := by
  induction depth generalizing i with
  | zero => exact ⟨rfl, rfl, Iff.rfl⟩
  | succ depth ih =>
      rw [dirs] at hdirs
      rw [leaves] at hleaves
      by_cases hdir : (fs i).isDirectory = true
      · rw [if_pos hdir] at hdirs hleaves
        have hi : fs' i = fs i := hdirs i List.mem_cons_self
        have hbelow : ∀ e ∈ (fs i).entries, dirs fs' depth e.2 = dirs fs depth e.2 ∧
            leaves fs' depth e.2 = leaves fs depth e.2 ∧ (Fits fs' depth e.2 ↔ Fits fs depth e.2) :=
          fun e he => ih
            (fun x hx => hdirs x (List.mem_cons_of_mem _ (List.mem_flatMap.mpr ⟨e, he, hx⟩)))
            fun x hx => hleaves x (List.mem_flatMap.mpr ⟨e, he, hx⟩)
        simp only [dirs, leaves, Fits, hi, if_pos hdir]
        refine ⟨?_, ?_, forall₂_congr fun e he => (hbelow e he).2.2⟩
        · rw [List.flatMap_congr fun e he => (hbelow e he).1]
        · exact List.flatMap_congr fun e he => (hbelow e he).2.1
      · rw [if_neg hdir] at hleaves
        have hi : fs' i = fs i := hleaves i (List.mem_singleton.mpr rfl)
        simp only [dirs, leaves, Fits, hi, if_neg hdir, true_and]
        cases hfile : fs i with
        | directory l =>
            rw [hfile] at hdir
            exact absurd rfl hdir
        | symlink _ | object _ => exact iff_of_true (fun e he => by cases he) fun e he => by cases he

-- ============================================================================
-- Some entries
-- ============================================================================

variable [DecidableEq ν]

section

variable (fs)

/-- The inodes that names in a directory stand for. -/
def kids (dir : Nat) (names : List ν) : List Nat := names.filterMap fun n => (fs dir).child n

/-- The directories below some entries. -/
def dirsIn (depth dir : Nat) (names : List ν) : List Nat := (kids fs dir names).flatMap (dirs fs depth)

/-- The other inodes below some entries. -/
def leavesIn (depth dir : Nat) (names : List ν) : List Nat :=
  (kids fs dir names).flatMap (leaves fs depth)

end

theorem kids_cons {n : ν} {i : Nat} (names : List ν) (h : (fs dir).child n = some i) :
    kids fs dir (n :: names) = i :: kids fs dir names := by
  unfold kids
  rw [List.filterMap_cons_some h]

theorem dirsIn_cons {n : ν} {i : Nat} (names : List ν) (h : (fs dir).child n = some i) :
    dirsIn fs depth dir (n :: names) = dirs fs depth i ++ dirsIn fs depth dir names := by
  rw [dirsIn, kids_cons names h, List.flatMap_cons, dirsIn]

theorem leavesIn_cons {n : ν} {i : Nat} (names : List ν) (h : (fs dir).child n = some i) :
    leavesIn fs depth dir (n :: names) = leaves fs depth i ++ leavesIn fs depth dir names := by
  rw [leavesIn, kids_cons names h, List.flatMap_cons, leavesIn]

theorem dirsIn_single {n : ν} {i : Nat} (h : (fs dir).child n = some i) :
    dirsIn fs depth dir [n] = dirs fs depth i := by
  rw [dirsIn_cons [] h]
  exact List.append_nil _

theorem leavesIn_single {n : ν} {i : Nat} (h : (fs dir).child n = some i) :
    leavesIn fs depth dir [n] = leaves fs depth i := by
  rw [leavesIn_cons [] h]
  exact List.append_nil _

theorem mem_dirsIn_self {n : ν} {i : Nat} (h : (fs dir).child n = some i)
    (hdir : (fs i).isDirectory = true) : i ∈ dirsIn fs (depth + 1) dir [n] := by
  rw [dirsIn_single h, dirs, if_pos hdir]
  exact List.mem_cons_self

theorem isDirectory_of_mem_dirsIn {names : List ν} {x : Nat} (h : x ∈ dirsIn fs depth dir names) :
    (fs x).isDirectory = true := by
  obtain ⟨i, -, hx⟩ := List.mem_flatMap.mp h
  exact isDirectory_of_mem_dirs hx

theorem not_isDirectory_of_mem_leavesIn {names : List ν} {x : Nat}
    (h : x ∈ leavesIn fs depth dir names) : (fs x).isDirectory = false := by
  obtain ⟨i, -, hx⟩ := List.mem_flatMap.mp h
  exact not_isDirectory_of_mem_leaves hx

/-- Entries of a directory that can be walked, with names of some kind below. -/
structure Ready (valid : ν → Prop) (fs : Inodes ν τ α) (depth dir : Nat) (names : List ν) :
    Prop where
  directory : (fs dir).isDirectory = true
  distinct : names.Nodup
  child : ∀ n ∈ names, ∃ i, (fs dir).child n = some i ∧ Fits fs depth i
  /-- No directory has two entries or is above itself. -/
  once : (dir :: dirsIn fs depth dir names).Nodup
  /-- No name has two entries. -/
  keys : ∀ x ∈ dirsIn fs depth dir names, ((fs x).entries.map Prod.fst).Nodup
  valid : ∀ x ∈ dirsIn fs depth dir names, ∀ e ∈ (fs x).entries, valid e.1

/-- At most entries of these names have been removed, and entries below them. -/
structure Frame (fs fs' : Inodes ν τ α) (depth dir : Nat) (names : List ν) : Prop where
  directory : (fs' dir).isDirectory = true
  child : ∀ n, (fs' dir).child n = (fs dir).child n ∨ n ∈ names ∧ (fs' dir).child n = none
  files : ∀ x, x ≠ dir → x ∉ dirsIn fs depth dir names → fs' x = fs x

theorem Frame.refl (names : List ν) (h : (fs dir).isDirectory = true) :
    Frame fs fs depth dir names :=
  ⟨h, fun _ => Or.inl rfl, fun _ _ _ => rfl⟩

/-- What is no directory stays as it is. -/
theorem Frame.of_not_isDirectory {names : List ν} {x : Nat} (h : Frame fs fs' depth dir names)
    (hdir : (fs dir).isDirectory = true) (hx : (fs x).isDirectory = false) : fs' x = fs x := by
  refine h.files x (fun heq => ?_) fun hmem => ?_
  · rw [heq, hdir] at hx
    cases hx
  · rw [isDirectory_of_mem_dirsIn hmem] at hx
    cases hx

namespace Ready

variable {valid : ν → Prop} {n : ν} {names : List ν}

theorem dirsIn_cons (h : Ready valid fs depth dir (n :: names)) :
    dirsIn fs depth dir (n :: names) = dirsIn fs depth dir [n] ++ dirsIn fs depth dir names := by
  obtain ⟨i, hi, -⟩ := h.child n List.mem_cons_self
  rw [Subtree.dirsIn_cons names hi, dirsIn_single hi]

theorem leavesIn_cons (h : Ready valid fs depth dir (n :: names)) :
    leavesIn fs depth dir (n :: names) =
      leavesIn fs depth dir [n] ++ leavesIn fs depth dir names := by
  obtain ⟨i, hi, -⟩ := h.child n List.mem_cons_self
  rw [Subtree.leavesIn_cons names hi, leavesIn_single hi]

/-- The entry of a name. -/
theorem head (h : Ready valid fs depth dir (n :: names)) : Ready valid fs depth dir [n] := by
  obtain ⟨i, hi, -⟩ := h.child n List.mem_cons_self
  have honce := h.once
  rw [Subtree.dirsIn_cons names hi] at honce
  have hdirs : dirsIn fs depth dir [n] = dirs fs depth i := dirsIn_single hi
  have hmem : ∀ x ∈ dirsIn fs depth dir [n], x ∈ dirsIn fs depth dir (n :: names) := by
    intro x hx
    rw [h.dirsIn_cons]
    exact List.mem_append_left _ hx
  refine ⟨h.directory, List.nodup_singleton n, fun m hm => ?_, ?_, fun x hx => h.keys x (hmem x hx),
    fun x hx => h.valid x (hmem x hx)⟩
  · rw [List.mem_singleton.mp hm]
    exact h.child n List.mem_cons_self
  · rw [hdirs]
    exact honce.sublist (List.Sublist.cons_cons dir (List.sublist_append_left _ _))

/-- When the entry of a name has been walked, the others are as they were. -/
theorem frame (h : Ready valid fs depth dir (n :: names)) (hframe : Frame fs fs' depth dir [n]) :
    Ready valid fs' depth dir names ∧ (∀ m ∈ names, (fs' dir).child m = (fs dir).child m) ∧
      dirsIn fs' depth dir names = dirsIn fs depth dir names ∧
      leavesIn fs' depth dir names = leavesIn fs depth dir names ∧
      ∀ x ∈ dirsIn fs depth dir names, x ∉ dirsIn fs depth dir [n] := by
  obtain ⟨i, hi, -⟩ := h.child n List.mem_cons_self
  have hnames := List.nodup_cons.mp h.distinct
  have honce := h.once
  rw [Subtree.dirsIn_cons names hi, List.nodup_cons, List.nodup_append] at honce
  obtain ⟨hdir, -, hnodup, hdisjoint⟩ := honce
  have happart : ∀ x ∈ dirsIn fs depth dir names, x ∉ dirsIn fs depth dir [n] := by
    intro x hx hx'
    rw [dirsIn_single hi] at hx'
    exact hdisjoint x hx' x hx rfl
  have hchild : ∀ m ∈ names, (fs' dir).child m = (fs dir).child m := by
    intro m hm
    rcases hframe.child m with hsame | ⟨hmem, -⟩
    · exact hsame
    · rw [List.mem_singleton.mp hmem] at hm
      exact absurd hm hnames.1
  -- directories below the others are elsewhere, and leaves are no directories
  have hdirs : ∀ x ∈ dirsIn fs depth dir names, fs' x = fs x := by
    intro x hx
    refine hframe.files x (fun heq => hdir ?_) (happart x hx)
    exact List.mem_append_right _ (heq ▸ hx)
  have hleaves : ∀ x ∈ leavesIn fs depth dir names, fs' x = fs x := fun x hx =>
    hframe.of_not_isDirectory h.directory (not_isDirectory_of_mem_leavesIn hx)
  have hkids : kids fs' dir names = kids fs dir names := List.filterMap_congr hchild
  have hagree : ∀ j ∈ kids fs dir names, dirs fs' depth j = dirs fs depth j ∧
      leaves fs' depth j = leaves fs depth j ∧ (Fits fs' depth j ↔ Fits fs depth j) :=
    fun j hj => agree (fun x hx => hdirs x (List.mem_flatMap.mpr ⟨j, hj, hx⟩))
      fun x hx => hleaves x (List.mem_flatMap.mpr ⟨j, hj, hx⟩)
  have hdirsIn : dirsIn fs' depth dir names = dirsIn fs depth dir names := by
    rw [dirsIn, hkids]
    exact List.flatMap_congr fun j hj => (hagree j hj).1
  have hmem : ∀ x ∈ dirsIn fs depth dir names, x ∈ dirsIn fs depth dir (n :: names) := by
    intro x hx
    rw [h.dirsIn_cons]
    exact List.mem_append_right _ hx
  refine ⟨⟨hframe.directory, hnames.2, fun m hm => ?_, ?_, fun x hx => ?_, fun x hx => ?_⟩, hchild,
    hdirsIn, ?_, happart⟩
  · obtain ⟨j, hj, hfits⟩ := h.child m (List.mem_cons_of_mem n hm)
    refine ⟨j, (hchild m hm).trans hj, (hagree j ?_).2.2.mpr hfits⟩
    exact List.mem_filterMap.mpr ⟨m, hm, hj⟩
  · rw [hdirsIn, List.nodup_cons]
    exact ⟨fun hmem => hdir (List.mem_append_right _ hmem), hnodup⟩
  · rw [hdirsIn] at hx
    rw [hdirs x hx]
    exact h.keys x (hmem x hx)
  · rw [hdirsIn] at hx
    rw [hdirs x hx]
    exact h.valid x (hmem x hx)
  · rw [leavesIn, hkids]
    exact List.flatMap_congr fun j hj => (hagree j hj).2.1

end Ready

/-- One entry after the others. -/
theorem Frame.cons {valid : ν → Prop} {fs'' : Inodes ν τ α} {n : ν} {names : List ν}
    (h : Ready valid fs depth dir (n :: names)) (hhead : Frame fs fs' depth dir [n])
    (htail : Frame fs' fs'' depth dir names) : Frame fs fs'' depth dir (n :: names) := by
  obtain ⟨i, hi, -⟩ := h.child n List.mem_cons_self
  obtain ⟨-, -, hdirsIn, -⟩ := h.frame hhead
  have hsplit : ∀ x, x ∉ dirsIn fs depth dir (n :: names) →
      x ∉ dirsIn fs depth dir [n] ∧ x ∉ dirsIn fs' depth dir names := by
    intro x hx
    rw [dirsIn_cons names hi, List.mem_append, not_or] at hx
    exact ⟨fun hmem => hx.1 (dirsIn_single hi ▸ hmem), hdirsIn ▸ hx.2⟩
  refine ⟨htail.directory, fun m => ?_, fun x hx hnot => ?_⟩
  · rcases htail.child m with hsame | ⟨hmem, hnone⟩
    · rcases hhead.child m with hsame' | ⟨hmem, hnone⟩
      · exact Or.inl (hsame.trans hsame')
      · exact Or.inr ⟨List.mem_cons.mpr (Or.inl (List.mem_singleton.mp hmem)), hsame.trans hnone⟩
    · exact Or.inr ⟨List.mem_cons_of_mem n hmem, hnone⟩
  · exact (htail.files x hx (hsplit x hnot).2).trans (hhead.files x hx (hsplit x hnot).1)

-- ============================================================================
-- One step down
-- ============================================================================

section Below

variable {i : Nat} {names : List ν}

/-- The names of a directory in any order. -/
theorem kids_perm (hkeys : ((fs i).entries.map Prod.fst).Nodup)
    (h : names.Perm ((fs i).entries.map Prod.fst)) :
    (kids fs i names).Perm ((fs i).entries.map Prod.snd) := by
  refine (h.filterMap _).trans (List.Perm.of_eq ?_)
  rw [List.filterMap_map, ← List.filterMap_eq_map]
  exact List.filterMap_congr fun e he => (Inode.child_eq_some_of_nodup hkeys).mpr he

variable (hdir : (fs i).isDirectory = true) (hkeys : ((fs i).entries.map Prod.fst).Nodup)
  (h : names.Perm ((fs i).entries.map Prod.fst))

include hdir hkeys h

variable (depth) in
theorem dirs_perm : (dirs fs (depth + 1) i).Perm (i :: dirsIn fs depth i names) := by
  rw [dirs, if_pos hdir]
  refine List.Perm.cons i ?_
  have hperm := ((kids_perm hkeys h).flatMap_right (dirs fs depth)).symm
  rw [List.flatMap_map] at hperm
  exact hperm

variable (depth) in
theorem leaves_perm : (leaves fs (depth + 1) i).Perm (leavesIn fs depth i names) := by
  rw [leaves, if_pos hdir]
  have hperm := ((kids_perm hkeys h).flatMap_right (leaves fs depth)).symm
  rw [List.flatMap_map] at hperm
  exact hperm

end Below

section Entry

variable {i : Nat} {n : ν} (hi : (fs dir).child n = some i)

include hi

variable {valid : ν → Prop} {names : List ν} (hready : Ready valid fs (depth + 1) dir [n])
  (hdir : (fs i).isDirectory = true)

include hready hdir

theorem Ready.keys_at : ((fs i).entries.map Prod.fst).Nodup :=
  hready.keys i (mem_dirsIn_self hi hdir)

variable (h : names.Perm ((fs i).entries.map Prod.fst))

include h

/-- The entries of a directory of the subtree. -/
theorem Ready.below : Ready valid fs depth i names ∧ dir ≠ i ∧ dir ∉ dirsIn fs depth i names := by
  have hkeys := hready.keys_at hi hdir
  have hperm := dirs_perm depth hdir hkeys h
  have honce := hready.once
  rw [dirsIn_single hi, List.nodup_cons, hperm.nodup_iff, hperm.mem_iff, List.mem_cons,
    not_or] at honce
  obtain ⟨⟨hne, hnot⟩, hnodup⟩ := honce
  obtain ⟨j, hj, hfits⟩ := hready.child n (List.mem_singleton.mpr rfl)
  rw [hi] at hj
  cases hj
  have hmem : ∀ x ∈ dirsIn fs depth i names, x ∈ dirsIn fs (depth + 1) dir [n] := by
    intro x hx
    rw [dirsIn_single hi, hperm.mem_iff]
    exact List.mem_cons_of_mem i hx
  refine ⟨⟨hdir, h.nodup_iff.mpr hkeys, fun m hm => ?_, hnodup, fun x hx => hready.keys x (hmem x hx),
    fun x hx => hready.valid x (hmem x hx)⟩, hne, hnot⟩
  · obtain ⟨e, he, rfl⟩ := List.mem_map.mp (h.mem_iff.mp hm)
    exact ⟨e.2, (Inode.child_eq_some_of_nodup hkeys).mpr he, hfits e he⟩

/-- Whoever stays below a directory stays below its own entry. -/
theorem Frame.above (hframe : Frame fs fs' depth i names) :
    fs' dir = fs dir ∧ Frame fs fs' (depth + 1) dir [n] := by
  obtain ⟨-, hne, hnot⟩ := hready.below hi hdir h
  have hsame : fs' dir = fs dir := hframe.files dir hne hnot
  refine ⟨hsame, ⟨?_, fun m => Or.inl (by rw [hsame]), fun x hx hxnot => ?_⟩⟩
  · rw [hsame]
    exact hready.directory
  · rw [dirsIn_single hi, (dirs_perm _ hdir (hready.keys_at hi hdir) h).mem_iff, List.mem_cons,
      not_or] at hxnot
    exact hframe.files x hxnot.1 hxnot.2

end Entry

end Subtree
end NixStore
