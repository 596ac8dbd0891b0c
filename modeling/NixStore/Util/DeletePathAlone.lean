/-
  NixStore.Util.DeletePathAlone

  What `deletePath` does when nobody else changes the file system: it returns
  just when the path and everything below it is gone, and throws just when the
  path is still there.  Nothing else has changed then but link counts
  (`deletePath_alone`).

  The number of bytes it reports is worked out from link counts that go down
  while it runs, so a file with several names in the tree is looked at several
  times (`times`).
-/

import NixStore.Lib.Effect
import NixStore.Lib.Subtree
import NixStore.Util.DeletePath
import Mathlib.Algebra.BigOperators.Group.Finset.Basic
import Mathlib.Data.Finset.Dedup

namespace NixStore
namespace DeletePath

open FileSystemAt Effect Subtree

-- ============================================================================
-- Counting
-- ============================================================================

/-- How often a link count that goes down by one each time is one or two. -/
def times : Nat → Nat → Nat
  | _, 0 => 0
  | nlink, k + 1 => (if nlink = 1 ∨ nlink = 2 then 1 else 0) + times (nlink - 1) k

theorem times_add (nlink j k : Nat) : times nlink (j + k) = times nlink j + times (nlink - j) k := by
  induction j generalizing nlink with
  | zero => rw [Nat.zero_add, Nat.sub_zero, times, Nat.zero_add]
  | succ j ih =>
      rw [Nat.add_right_comm, times, times, ih, Nat.add_assoc, Nat.sub_sub, Nat.add_comm 1 j]

/-- With enough links, a file counts once or twice if all of its names go, and
    once if one stays. -/
theorem times_of_le {nlink k : Nat} (h : k ≤ nlink) :
    times nlink k = if nlink = k then min k 2 else if nlink = k + 1 then min k 1 else 0 := by
  induction k generalizing nlink with
  | zero =>
      rw [times]
      split
      · rfl
      · split <;> rfl
  | succ k ih =>
      have hrest := @ih (nlink - 1) (by omega)
      obtain rfl | rfl | hmany : nlink = k + 1 ∨ nlink = k + 2 ∨ k + 3 ≤ nlink := by omega
      · rw [Nat.add_sub_cancel, if_pos rfl] at hrest
        rw [times, Nat.add_sub_cancel, hrest, if_pos (rfl : k + 1 = k + 1)]
        split <;> omega
      · rw [show k + 2 - 1 = k + 1 from rfl, if_neg (by omega), if_pos rfl] at hrest
        rw [times, show k + 2 - 1 = k + 1 from rfl, hrest, if_neg (by omega : ¬ k + 2 = k + 1),
          if_pos (rfl : k + 2 = k + 1 + 1)]
        split <;> omega
      · rw [if_neg (by omega), if_neg (by omega)] at hrest
        rw [times, hrest, if_neg (by omega), if_neg (by omega), if_neg (by omega)]

/-- The bytes that are counted when files with these names are removed one after
    the other. -/
def likely (size nlink : Nat → Nat) (l : List Nat) : Nat :=
  ∑ x ∈ l.toFinset, size x * times (nlink x) (l.count x)

variable {size nlink : Nat → Nat}

theorem likely_eq_sum {l : List Nat} {F : Finset Nat} (h : l.toFinset ⊆ F) :
    likely size nlink l = ∑ x ∈ F, size x * times (nlink x) (l.count x) := by
  refine Finset.sum_subset h fun x _ hx => ?_
  rw [List.mem_toFinset] at hx
  rw [List.count_eq_zero_of_not_mem hx, times, Nat.mul_zero]

theorem likely_append (l l' : List Nat) :
    likely size nlink (l ++ l') =
      likely size nlink l + likely size (fun x => nlink x - l.count x) l' := by
  rw [likely_eq_sum (F := (l ++ l').toFinset) (l := l), likely_eq_sum (F := (l ++ l').toFinset)
    (l := l'), likely, ← Finset.sum_add_distrib]
  · refine Finset.sum_congr rfl fun x _ => ?_
    rw [List.count_append, times_add, Nat.mul_add]
  · rw [List.toFinset_append]
    exact Finset.subset_union_right
  · rw [List.toFinset_append]
    exact Finset.subset_union_left

theorem likely_perm {l l' : List Nat} (h : l.Perm l') :
    likely size nlink l = likely size nlink l' := by
  rw [likely, likely, List.toFinset_eq_of_perm l l' h]
  exact Finset.sum_congr rfl fun x _ => by rw [h.count_eq]

theorem likely_congr {size' nlink' : Nat → Nat} {l : List Nat}
    (h : ∀ x ∈ l, size' x = size x ∧ nlink' x = nlink x) :
    likely size' nlink' l = likely size nlink l := by
  refine Finset.sum_congr rfl fun x hx => ?_
  obtain ⟨hsize, hnlink⟩ := h x (List.mem_toFinset.mp hx)
  rw [hsize, hnlink]

theorem likely_single (x : Nat) :
    likely size nlink [x] = if nlink x = 1 ∨ nlink x = 2 then size x else 0 := by
  rw [likely, List.toFinset_cons, List.toFinset_nil, insert_empty_eq, Finset.sum_singleton,
    List.count_singleton_self, times, times]
  split
  · rw [Nat.add_zero, Nat.mul_one]
  · rw [Nat.add_zero, Nat.mul_zero]

-- ============================================================================
-- Outcomes
-- ============================================================================

/-- A name that `readdir` returns for an entry. -/
def isEntry (name : Bytes) : Bool := !(name = ascii "." ∨ name = ascii "..")

/-- `st_size` of every inode. -/
def Tree.sizes (t : Tree) (x : Nat) : Nat := sizeOf (t.files x)

/-- Nothing has changed but entries with these names and what is below them. -/
structure Touches (t t' : Tree) (depth dir : Nat) (names : List Bytes) : Prop where
  frame : Frame t.files t'.files depth dir names
  nlink : ∀ x, (t.files x).isDirectory = false → x ∉ leavesIn t.files depth dir names →
    t'.nlink x = t.nlink x
  accessible : ∀ x, x ∉ dirsIn t.files depth dir names → t'.accessible x = t.accessible x

/-- The entries with these names are gone, and all that was below them. -/
structure Gone (t t' : Tree) (depth dir : Nat) (names : List Bytes) : Prop
    extends Touches t t' depth dir names where
  removed : ∀ n ∈ names, (t'.files dir).child n = none
  cleared : ∀ x ∈ dirsIn t.files depth dir names, t'.files x = .directory []
  counts : ∀ x, (t.files x).isDirectory = false →
    t'.nlink x = t.nlink x - (leavesIn t.files depth dir names).count x

/-- Some entry is still there. -/
structure Stuck (t t' : Tree) (depth dir : Nat) (names : List Bytes) : Prop
    extends Touches t t' depth dir names where
  left : ∃ n ∈ names, (t'.files dir).child n = (t.files dir).child n

/-- All went well. -/
structure Done (s s' : Deleting) (depth dir : Nat) (names : List Bytes) : Prop where
  gone : Gone s.tree s'.tree depth dir names
  bytesFreed : s'.bytesFreed = s.bytesFreed +
    UInt64.ofNat (likely s.tree.sizes s.tree.nlink (leavesIn s.tree.files depth dir names))
  ex : s'.ex = s.ex

/-- How the removal of some entries ends: if one of them stays, something is
    thrown or will be. -/
def Outcome (s : Deleting) (depth dir : Nat) (names : List Bytes) :
    EStateM.Result DeleteError Deleting Unit → Prop
  | .ok _ s' => Done s s' depth dir names ∨
      Stuck s.tree s'.tree depth dir names ∧ ∃ e, s'.ex = s.ex.or (some e)
  | .error _ s' => Stuck s.tree s'.tree depth dir names

section Sequence

variable {t t' t'' : Tree} {depth dir : Nat} {n : Bytes} {names : List Bytes}

theorem Touches.refl (names : List Bytes) (h : (t.files dir).isDirectory = true) :
    Touches t t depth dir names :=
  ⟨.refl names h, fun _ _ _ => rfl, fun _ _ => rfl⟩

theorem Touches.cons (hready : Ready (isEntry · = true) t.files depth dir (n :: names))
    (hhead : Touches t t' depth dir [n]) (htail : Touches t' t'' depth dir names) :
    Touches t t'' depth dir (n :: names) := by
  obtain ⟨-, -, hdirs, hleaves, -⟩ := hready.frame hhead.frame
  refine ⟨.cons hready hhead.frame htail.frame, fun x hx hnot => ?_, fun x hnot => ?_⟩
  · rw [hready.leavesIn_cons, List.mem_append, not_or] at hnot
    have hsame := hhead.frame.of_not_isDirectory hready.directory hx
    rw [htail.nlink x (hsame ▸ hx) (hleaves ▸ hnot.2), hhead.nlink x hx hnot.1]
  · rw [hready.dirsIn_cons, List.mem_append, not_or] at hnot
    rw [htail.accessible x (hdirs ▸ hnot.2), hhead.accessible x hnot.1]

theorem Gone.cons (hready : Ready (isEntry · = true) t.files depth dir (n :: names))
    (hhead : Gone t t' depth dir [n]) (htail : Gone t' t'' depth dir names) :
    Gone t t'' depth dir (n :: names) := by
  obtain ⟨hready', -, hdirs, hleaves, -⟩ := hready.frame hhead.frame
  refine ⟨.cons hready hhead.toTouches htail.toTouches, fun m hm => ?_, fun x hx => ?_,
    fun x hx => ?_⟩
  · rcases List.mem_cons.mp hm with rfl | hm
    · rcases htail.frame.child m with hsame | ⟨-, hnone⟩
      · exact hsame.trans (hhead.removed m (List.mem_singleton.mpr rfl))
      · exact hnone
    · exact htail.removed m hm
  · rw [hready.dirsIn_cons, List.mem_append] at hx
    by_cases hlate : x ∈ dirsIn t.files depth dir names
    · exact htail.cleared x (hdirs.symm ▸ hlate)
    · have hearly := hx.resolve_right hlate
      have hne : x ≠ dir := by
        rintro rfl
        have honce := hready.head.once
        exact (List.nodup_cons.mp honce).1 hearly
      rw [htail.frame.files x hne (hdirs.symm ▸ hlate)]
      exact hhead.cleared x hearly
  · have hsame := hhead.frame.of_not_isDirectory hready.directory hx
    rw [htail.counts x (hsame ▸ hx), hhead.counts x hx, hleaves, hready.leavesIn_cons,
      List.count_append, Nat.sub_sub]

theorem Done.cons {s s' s'' : Deleting} (hready : Ready (isEntry · = true) s.tree.files depth dir (n :: names))
    (hhead : Done s s' depth dir [n]) (htail : Done s' s'' depth dir names) :
    Done s s'' depth dir (n :: names) := by
  obtain ⟨-, -, -, hleaves, -⟩ := hready.frame hhead.gone.frame
  refine ⟨.cons hready hhead.gone htail.gone, ?_, htail.ex.trans hhead.ex⟩
  -- the second part is counted with the link counts that the first one leaves
  have hcounts : likely s'.tree.sizes s'.tree.nlink (leavesIn s.tree.files depth dir names) =
      likely s.tree.sizes
        (fun x => s.tree.nlink x - (leavesIn s.tree.files depth dir [n]).count x)
        (leavesIn s.tree.files depth dir names) := by
    refine likely_congr fun x hx => ?_
    have hleaf := not_isDirectory_of_mem_leavesIn hx
    have hsame := hhead.gone.frame.of_not_isDirectory hready.directory hleaf
    exact ⟨congrArg sizeOf hsame, hhead.gone.counts x hleaf⟩
  rw [htail.bytesFreed, hhead.bytesFreed, hleaves, hcounts, hready.leavesIn_cons, likely_append,
    UInt64.ofNat_add, UInt64.add_assoc]

/-- One entry after the others. -/
theorem Outcome.cons {s : Deleting} {x y : DeleteM Unit}
    (hready : Ready (isEntry · = true) s.tree.files depth dir (n :: names)) (hx : Outcome s depth dir [n] (x s))
    (hy : ∀ s', Ready (isEntry · = true) s'.tree.files depth dir names → Outcome s' depth dir names (y s')) :
    Outcome s depth dir (n :: names) ((x >>= fun _ => y) s) := by
  rw [Effect.bind_run]
  cases hrun : x s with
  | error e s' =>
      rw [hrun] at hx
      obtain ⟨htouches, m, hm, hleft⟩ := hx
      obtain ⟨hready', -⟩ := hready.frame htouches.frame
      refine ⟨.cons hready htouches (.refl names hready'.directory), m, ?_, hleft⟩
      rw [List.mem_singleton.mp hm]
      exact List.mem_cons_self
  | ok u s' =>
      rw [hrun] at hx
      have hframe : Frame s.tree.files s'.tree.files depth dir [n] := by
        rcases hx with hdone | ⟨hstuck, -⟩
        · exact hdone.gone.frame
        · exact hstuck.frame
      obtain ⟨hready', hchild, -⟩ := hready.frame hframe
      have htail := hy s' hready'
      simp only
      cases hrun' : y s' with
      | error e s'' =>
          rw [hrun'] at htail
          obtain ⟨htouches, m, hm, hleft⟩ := htail
          have hhead : Touches s.tree s'.tree depth dir [n] := by
            rcases hx with hdone | ⟨hstuck, -⟩
            · exact hdone.gone.toTouches
            · exact hstuck.toTouches
          exact ⟨.cons hready hhead htouches, m, List.mem_cons_of_mem n hm,
            hleft.trans (hchild m hm)⟩
      | ok u s'' =>
          rw [hrun'] at htail
          rcases hx with hdone | ⟨hstuck, e, he⟩
          · rcases htail with hdone' | ⟨hstuck', e, he⟩
            · exact Or.inl (.cons hready hdone hdone')
            · obtain ⟨m, hm, hleft⟩ := hstuck'.left
              refine Or.inr ⟨⟨.cons hready hdone.gone.toTouches hstuck'.toTouches, m,
                List.mem_cons_of_mem n hm, hleft.trans (hchild m hm)⟩, e, ?_⟩
              rw [he, hdone.ex]
          · -- the entry of the first name stays
            obtain ⟨m, hm, hleft⟩ := hstuck.left
            rw [List.mem_singleton.mp hm] at hleft
            have hnot := (List.nodup_cons.mp hready.distinct).1
            have hstays : ∀ htouches : Touches s'.tree s''.tree depth dir names,
                Stuck s.tree s''.tree depth dir (n :: names) := fun htouches =>
              ⟨.cons hready hstuck.toTouches htouches, n, List.mem_cons_self, by
                rcases htouches.frame.child n with hsame | ⟨hmem, -⟩
                · exact hsame.trans hleft
                · exact absurd hmem hnot⟩
            rcases htail with hdone' | ⟨hstuck', e', he'⟩
            · exact Or.inr ⟨hstays hdone'.gone.toTouches, e, hdone'.ex.trans he⟩
            · refine Or.inr ⟨hstays hstuck'.toTouches, e, ?_⟩
              rw [he', he, Option.or_assoc]
              rfl

end Sequence

-- ============================================================================
-- System calls
-- ============================================================================

/-- Nobody else changes anything, and `readdir` returns every entry once. -/
structure Alone (env : Surroundings) : Prop where
  others : ∀ n t, env.others n t = t
  readdir : ∀ n t d, (t.files d).isDirectory = true →
    ((env.readdir n t d).1.filter isEntry).Perm (((t.files d).entries.map Prod.fst).filter isEntry)

section Calls

variable {env : Surroundings} (henv : Alone env) {s : Deleting} {depth dir i : Nat} {name : Bytes}
  {path : NodePath}

include henv

theorem Alone.turn (s : Deleting) : (s.turn env).tree = s.tree := henv.others _ _

/-- The removal of a name succeeds, or is put off. -/
theorem unlinkLast_run (removeDir : Bool) (s : Deleting) :
    (∃ c s', unlinkat dir (filename path) removeDir s.tree = .ok c ∧
      unlinkLast env dir path removeDir s = .ok () s' ∧ s'.tree = s.tree.apply c ∧
      s'.bytesFreed = s.bytesFreed ∧ s'.ex = s.ex) ∨
    ∃ e s', unlinkLast env dir path removeDir s = .ok () s' ∧ s'.tree = s.tree ∧
      ((unlinkat dir (filename path) removeDir s.tree = .error .noent ∧ s'.ex = s.ex) ∨
        s'.ex = s.ex.or (some e)) := by
  have htree := henv.turn s
  unfold unlinkLast
  cases hfails : env.fails s.time with
  | some code =>
      have hchange : change env (unlinkat dir (filename path) removeDir) s =
          .ok (.error (.other code)) (s.turn env) := by
        rw [change, hfails]
      rw [Effect.bind_of_ok hchange]
      exact Or.inr ⟨_, _, rfl, htree, Or.inr rfl⟩
  | none =>
      cases hc : unlinkat dir (filename path) removeDir s.tree with
      | ok c =>
          have hchange : change env (unlinkat dir (filename path) removeDir) s =
              .ok (.ok ()) ((s.turn env).record c) := by
            rw [change, hfails, htree, hc]
          rw [Effect.bind_of_ok hchange]
          exact Or.inl ⟨c, _, rfl, rfl, congrArg (Tree.apply · c) htree, rfl, rfl⟩
      | error e =>
          have hchange : change env (unlinkat dir (filename path) removeDir) s =
              .ok (.error e) (s.turn env) := by
            rw [change, hfails, htree, hc]
          rw [Effect.bind_of_ok hchange]
          cases e with
          | noent => exact Or.inr ⟨⟨.noent, ""⟩, _, rfl, htree, Or.inl ⟨rfl, rfl⟩⟩
          | notdir | loop | exist | isdir | other =>
              exact Or.inr ⟨_, _, rfl, htree, Or.inr rfl⟩

end Calls

-- ============================================================================
-- The entry itself
-- ============================================================================

section Entry

variable {s s₀ s₁ : Deleting} {depth dir i : Nat} {name : Bytes} {names : List Bytes}

theorem files_unlink (t : Tree) (dir : Nat) (name : Bytes) (i x : Nat) :
    (t.apply (.unlink dir name i)).files x =
      if x = dir then (t.files dir).without name else t.files x :=
  Function.update_apply ..

theorem nlink_unlink (t : Tree) (dir : Nat) (name : Bytes) (i x : Nat) :
    (t.apply (.unlink dir name i)).nlink x = if x = i then t.nlink i - 1 else t.nlink x :=
  Function.update_apply ..

/-- A file or an empty directory is removed. -/
theorem Touches.unlink {t t' : Tree} (h : Touches t t' depth dir [name])
    (hleaf : (t.files i).isDirectory = false → i ∈ leavesIn t.files depth dir [name]) :
    Touches t (t'.apply (.unlink dir name i)) depth dir [name] := by
  refine ⟨⟨?_, fun n => ?_, fun x hx hnot => ?_⟩, fun x hx hnot => ?_, h.accessible⟩
  · rw [files_unlink, if_pos rfl, Inode.isDirectory_without]
    exact h.frame.directory
  · rw [files_unlink, if_pos rfl, Inode.child_without]
    by_cases hn : n = name
    · rw [if_pos hn]
      exact Or.inr ⟨List.mem_singleton.mpr hn, rfl⟩
    · rw [if_neg hn]
      rcases h.frame.child n with hsame | ⟨hmem, -⟩
      · exact Or.inl hsame
      · exact absurd (List.mem_singleton.mp hmem) hn
  · rw [files_unlink, if_neg hx]
    exact h.frame.files x hx hnot
  · rw [nlink_unlink, if_neg (fun heq => hnot ?_)]
    · exact h.nlink x hx hnot
    · subst heq
      exact hleaf hx

/-- A file is removed. -/
theorem gone_leaf {t : Tree} (hready : Ready (isEntry · = true) t.files (depth + 1) dir [name])
    (hi : (t.files dir).child name = some i) (hfile : (t.files i).isDirectory = false) :
    Gone t (t.apply (.unlink dir name i)) (depth + 1) dir [name] := by
  have hleaves : leavesIn t.files (depth + 1) dir [name] = [i] := by
    rw [leavesIn_single hi, leaves, if_neg (by rw [hfile]; exact Bool.false_ne_true)]
  have hdirs : dirsIn t.files (depth + 1) dir [name] = [] := by
    rw [dirsIn_single hi, dirs, if_neg (by rw [hfile]; exact Bool.false_ne_true)]
  refine ⟨(Touches.refl [name] hready.directory).unlink fun _ => ?_, fun n hn => ?_, fun x hx => ?_,
    fun x _ => ?_⟩
  · rw [hleaves]
    exact List.mem_singleton.mpr rfl
  · rw [files_unlink, if_pos rfl, Inode.child_without, if_pos (List.mem_singleton.mp hn)]
  · rw [hdirs] at hx
    cases hx
  · rw [nlink_unlink, hleaves]
    by_cases hx : x = i
    · rw [if_pos hx, hx, List.count_singleton_self]
    · rw [if_neg hx, List.count_eq_zero_of_not_mem (fun hmem => hx (List.mem_singleton.mp hmem)),
        Nat.sub_zero]

/-- A directory whose entries are gone is empty. -/
theorem Gone.empty {t t' : Tree} (h : Gone t t' depth i names)
    (hkeys : ((t.files i).entries.map Prod.fst).Nodup)
    (hnames : names.Perm ((t.files i).entries.map Prod.fst)) : t'.files i = .directory [] := by
  refine Inode.eq_directory_nil h.frame.directory fun n => ?_
  by_cases hn : n ∈ names
  · exact h.removed n hn
  · rcases h.frame.child n with hsame | ⟨-, hnone⟩
    · rw [hsame]
      cases hchild : (t.files i).child n with
      | none => rfl
      | some j =>
          have hmem := (Inode.child_eq_some_of_nodup hkeys).mp hchild
          exact absurd (hnames.mem_iff.mpr (List.mem_map_of_mem hmem)) hn
    · exact hnone

/-- A directory with an entry that is left is not removed. -/
theorem Stuck.unlinkat {t t' : Tree} (h : Stuck t t' depth i names)
    (hchild : ∀ n ∈ names, ∃ j, (t.files i).child n = some j)
    (hi : (t'.files dir).child name = some i) :
    DeletePath.unlinkat dir name true t' = .error Errno.notempty := by
  obtain ⟨n, hn, hleft⟩ := h.left
  obtain ⟨j, hj⟩ := hchild n hn
  unfold DeletePath.unlinkat
  rw [nameAt_eq_ok.mpr hi]
  simp only
  rw [hj] at hleft
  cases hfile : t'.files i with
  | directory entries =>
      rw [hfile] at hleft
      cases entries with
      | nil => cases hleft
      | cons e entries => rfl
  | symlink _ | object _ =>
      rw [hfile] at hleft
      cases hleft

/-- Nothing but the mode of a directory has changed. -/
structure Entered (s s₀ : Deleting) (i : Nat) : Prop where
  files : s₀.tree.files = s.tree.files
  nlink : s₀.tree.nlink = s.tree.nlink
  accessible : ∀ x, x ≠ i → s₀.tree.accessible x = s.tree.accessible x
  bytesFreed : s₀.bytesFreed = s.bytesFreed
  ex : s₀.ex = s.ex

variable (hready : Ready (isEntry · = true) s.tree.files (depth + 1) dir [name])
  (hi : (s.tree.files dir).child name = some i) (hdir : (s.tree.files i).isDirectory = true)
  (hnames : names.Perm ((s.tree.files i).entries.map Prod.fst)) (hentered : Entered s s₀ i)

include hready hi hdir hnames hentered

/-- What happens below a directory happens below its entry. -/
theorem Touches.above (h : Touches s₀.tree s₁.tree depth i names) :
    Touches s.tree s₁.tree (depth + 1) dir [name] ∧ s₁.tree.files dir = s.tree.files dir := by
  have hkeys := hready.keys_at hi hdir
  have hframe := h.frame
  rw [hentered.files] at hframe
  obtain ⟨hsame, habove⟩ := hframe.above hi hready hdir hnames
  refine ⟨⟨habove, fun x hx hnot => ?_, fun x hnot => ?_⟩, hsame⟩
  · rw [leavesIn_single hi, (leaves_perm _ hdir hkeys hnames).mem_iff, ← hentered.files] at hnot
    rw [h.nlink x (hentered.files ▸ hx) hnot, hentered.nlink]
  · rw [dirsIn_single hi, (dirs_perm _ hdir hkeys hnames).mem_iff, List.mem_cons, not_or,
      ← hentered.files] at hnot
    rw [h.accessible x hnot.2, hentered.accessible x hnot.1]

/-- A directory is removed when it is empty. -/
theorem Done.above {s' : Deleting} (h : Done s₀ s₁ depth i names)
    (htree : s'.tree = s₁.tree.apply (.unlink dir name i)) (hbytes : s'.bytesFreed = s₁.bytesFreed)
    (hex : s'.ex = s₁.ex) : Done s s' (depth + 1) dir [name] := by
  have hkeys := hready.keys_at hi hdir
  have hleaves := leaves_perm depth hdir hkeys hnames
  have hdirs := dirs_perm depth hdir hkeys hnames
  obtain ⟨htouches, hsame⟩ := h.gone.toTouches.above hready hi hdir hnames hentered
  obtain ⟨-, hne, -⟩ := hready.below hi hdir hnames
  have hcleared := h.gone.cleared
  have hcounts := h.gone.counts
  rw [hentered.files] at hcleared hcounts
  refine ⟨⟨?_, fun n hn => ?_, fun x hx => ?_, fun x hx => ?_⟩, ?_, ?_⟩
  · rw [htree]
    refine htouches.unlink fun hfile => ?_
    rw [hdir] at hfile
    cases hfile
  · rw [htree, files_unlink, if_pos rfl, Inode.child_without, if_pos (List.mem_singleton.mp hn)]
  · have hxne : x ≠ dir := by
      rintro rfl
      exact (List.nodup_cons.mp hready.once).1 hx
    rw [htree, files_unlink, if_neg hxne]
    rw [dirsIn_single hi, hdirs.mem_iff] at hx
    rcases List.mem_cons.mp hx with rfl | hx
    · exact h.gone.empty (hentered.files ▸ hkeys) (hentered.files ▸ hnames)
    · exact hcleared x hx
  · have hxi : x ≠ i := by
      rintro rfl
      rw [hdir] at hx
      cases hx
    rw [htree, nlink_unlink, if_neg hxi, hcounts x hx, hentered.nlink, leavesIn_single hi,
      hleaves.count_eq]
  · rw [hbytes, h.bytesFreed, hentered.bytesFreed, leavesIn_single hi, likely_perm hleaves]
    have hsizes : s₀.tree.sizes = s.tree.sizes := by
      funext x
      exact congrArg (fun fs : Files => sizeOf (fs x)) hentered.files
    rw [hsizes, hentered.nlink, hentered.files]
  · rw [hex, h.ex, hentered.ex]

end Entry

-- ============================================================================
-- A run
-- ============================================================================

section Run

variable {env : Surroundings} (henv : Alone env) {depth dir i : Nat} {path : NodePath}

/-- The loop over the names in a directory. -/
theorem loop_outcome {visit : Bytes → DeleteM Unit}
    (hvisit : ∀ s n, Ready (isEntry · = true) s.tree.files depth dir [n] →
      Outcome s depth dir [n] (visit n s)) (l : List Bytes) (s : Deleting)
    (hready : Ready (isEntry · = true) s.tree.files depth dir (l.filter isEntry)) :
    Outcome s depth dir (l.filter isEntry)
      ((l.forM fun n => if n = ascii "." ∨ n = ascii ".." then pure () else visit n) s) := by
  induction l generalizing s with
  | nil =>
      refine Or.inl ⟨⟨.refl _ hready.directory, ?_, ?_, fun _ _ => rfl⟩, ?_, rfl⟩
      · intro n hn
        cases hn
      · intro x hx
        cases hx
      · exact (UInt64.add_zero _).symm
  | cons n l ih =>
      change Outcome s depth dir _ (((if n = ascii "." ∨ n = ascii ".." then pure () else visit n :
        DeleteM Unit) >>= fun _ =>
          l.forM fun n => if n = ascii "." ∨ n = ascii ".." then pure () else visit n) s)
      by_cases hn : n = ascii "." ∨ n = ascii ".."
      · have hskip : isEntry n = false := by simp only [isEntry, hn, decide_true, Bool.not_true]
        rw [List.filter_cons_of_neg (by rw [hskip]; exact Bool.false_ne_true)] at hready ⊢
        rw [if_pos hn]
        exact ih s hready
      · have hvisits : isEntry n = true := by simp only [isEntry, hn, decide_false, Bool.not_false]
        rw [List.filter_cons_of_pos hvisits] at hready ⊢
        rw [if_neg hn]
        exact .cons hready (hvisit s n hready.head) ih

include henv

theorem look_alone {α : Type} (f : Tree → Except Errno α) (s : Deleting) {Q : Except Errno α → Prop}
    (hfails : ∀ code, Q (.error (.other code))) (hf : Q (f s.tree)) :
    ∃ r, look env f s = .ok r (s.turn env) ∧ Q r := by
  unfold look
  cases env.fails s.time with
  | some code => exact ⟨_, rfl, hfails code⟩
  | none => exact ⟨_, rfl, by rw [henv.turn]; exact hf⟩

theorem entered_turn {s s₀ : Deleting} (h : Entered s s₀ i) : Entered s (s₀.turn env) i := by
  have htree := henv.turn s₀
  exact ⟨by rw [htree, h.files], by rw [htree, h.nlink], by rw [htree]; exact h.accessible,
    h.bytesFreed, h.ex⟩

/-- The mode of the directory is changed, or nothing. -/
theorem chmodOrThrow_enters {s : Deleting} {f : Tree → Except Errno Change} {msg : String}
    (hf : ∀ t : Tree, t.files = s.tree.files → f t = .ok (.chmod i)) :
    Spec (fun t => Entered s t i) (chmodOrThrow env f msg) (fun _ t => Entered s t i)
      fun _ t => Entered s t i := by
  refine Spec.seq (Q := fun _ t => Entered s t i) (fun t ht => ?_) fun r => ?_
  · have hturn := entered_turn henv ht
    unfold change
    cases env.fails t.time with
    | some code => exact hturn
    | none =>
        rw [hf _ hturn.files]
        refine ⟨hturn.files, hturn.nlink, fun x hx => ?_, hturn.bytesFreed, hturn.ex⟩
        have hupdate : ((t.turn env).tree.apply (.chmod i)).accessible x =
            (t.turn env).tree.accessible x := Function.update_of_ne hx ..
        exact hupdate.trans (hturn.accessible x hx)
  · cases r with
    | ok _ => exact .ret fun _ h => h
    | error e => exact .raise fun _ h => h

/-- In each of the three ways it is the directory whose mode is changed. -/
theorem fchmodatTryNoFollow_enters {s : Deleting}
    (hi : (s.tree.files dir).child (filename path) = some i)
    (hdir : (s.tree.files i).isDirectory = true) :
    Run s (fchmodatTryNoFollow env dir path) (fun _ t => Entered s t i)
      (fun _ t => Entered s t i) := by
  have hself : Entered s s i := ⟨rfl, rfl, fun _ _ => rfl, rfl, rfl⟩
  obtain ⟨entries, hentries⟩ : ∃ entries, s.tree.files i = .directory entries := by
    cases hfile : s.tree.files i with
    | directory entries => exact ⟨entries, rfl⟩
    | symlink _ | object _ =>
        rw [hfile] at hdir
        cases hdir
  have hname : nameAt s.tree.files dir (filename path) = .ok i := nameAt_eq_ok.mpr hi
  refine Spec.weaken (P := fun t => Entered s t i) ?_ (fun t ht => ht ▸ hself) (fun _ _ h => h)
    fun _ _ h => h
  unfold fchmodatTryNoFollow
  refine Spec.cond (fun _ => ?_) fun _ => ?_
  · refine chmodOrThrow_enters henv fun t ht => ?_
    simp only [fchmodat2, ht, hname, hentries, Inode.isSymlink, Bool.false_eq_true, if_false]
  refine Spec.seq (Q := fun r t => Entered s t i ∧ ∀ fd, r = .ok fd → fd = i) (fun t ht => ?_)
    fun r => Spec.given fun hr => ?_
  · obtain ⟨r, hrun, hr⟩ := look_alone henv (openPathAt dir (filename path)) t
      (Q := fun r => ∀ fd, r = .ok fd → fd = i) (fun _ fd h => by cases h) (fun fd h => by
        rw [openPathAt, ht.files, hname] at h
        cases h
        rfl)
    rw [hrun]
    exact ⟨entered_turn henv ht, hr⟩
  cases r with
  | error e => exact Spec.raise fun _ h => h
  | ok pathFd =>
      obtain rfl := hr pathFd rfl
      refine Spec.seq (Q := fun _ t => Entered s t pathFd) (fun t ht => ?_) fun isSymlink => ?_
      · obtain ⟨r, hrun, -⟩ := look_alone henv (isSymlinkFd pathFd) t (Q := fun _ => True)
          (fun _ => trivial) trivial
        rw [hrun]
        exact entered_turn henv ht
      cases isSymlink with
      | error e => exact Spec.raise fun _ h => h
      | ok isSymlink =>
          cases isSymlink with
          | true => exact Spec.raise fun _ h => h
          | false =>
              refine Spec.cond (fun _ => chmodOrThrow_enters henv fun _ _ => rfl) fun _ => ?_
              refine chmodOrThrow_enters henv fun t ht => ?_
              simp only [fchmodat, ht, hname, hentries]

/-- What a directory is like when it has been gone through. -/
theorem clearDirectory_outcome (visit : Nat → NodePath → DeleteM Unit)
    (hvisit : ∀ s fd p, Ready (isEntry · = true) s.tree.files depth fd [filename p] →
      Outcome s depth fd [filename p] (visit fd p s)) {s : Deleting}
    (hready : Ready (isEntry · = true) s.tree.files (depth + 1) dir [filename path])
    (hi : (s.tree.files dir).child (filename path) = some i)
    (hdir : (s.tree.files i).isDirectory = true) (accessible : Bool) :
    Run s (clearDirectory env visit dir path accessible)
      (fun _ s₁ => ∃ s₀ names, names.Perm ((s.tree.files i).entries.map Prod.fst) ∧ Entered s s₀ i ∧
        (Done s₀ s₁ depth i names ∨
          Stuck s₀.tree s₁.tree depth i names ∧ ∃ e, s₁.ex = s₀.ex.or (some e)))
      fun _ s₁ => ∃ s₀ names, names.Perm ((s.tree.files i).entries.map Prod.fst) ∧ Entered s s₀ i ∧
        Touches s₀.tree s₁.tree depth i names := by
  have hself : Entered s s i := ⟨rfl, rfl, fun _ _ => rfl, rfl, rfl⟩
  -- an exception before the loop
  have hearly : ∀ s₁, Entered s s₁ i → ∃ s₀ names,
      names.Perm ((s.tree.files i).entries.map Prod.fst) ∧ Entered s s₀ i ∧
        Touches s₀.tree s₁.tree depth i names := fun s₁ h =>
    ⟨s₁, _, .refl _, h, .refl _ (by rw [h.files]; exact hdir)⟩
  refine Spec.seq (Q := fun _ t => Entered s t i) (Spec.cond (fun _ => ?_) fun _ => ?_) fun _ => ?_
  · exact .ret fun t ht => ht ▸ hself
  · exact (fchmodatTryNoFollow_enters henv hi hdir).weaken (fun _ h => h) (fun _ _ h => h)
      fun _ t h => hearly t h
  refine Spec.seq (Q := fun r t => Entered s t i ∧ ∀ fd, r = .ok fd → fd = i) (fun t ht => ?_)
    fun r => ?_
  · obtain ⟨r, hrun, hr⟩ := look_alone henv (openDirectoryAt dir (filename path)) t
      (Q := fun r => ∀ fd, r = .ok fd → fd = i) (fun _ fd h => by cases h) (fun fd h => by
        unfold openDirectoryAt at h
        rw [ht.files, nameAt_eq_ok.mpr hi] at h
        simp only [hdir, if_true] at h
        cases h
        rfl)
    rw [hrun]
    exact ⟨entered_turn henv ht, hr⟩
  refine Spec.given fun hr => ?_
  cases r with
  | error e => exact Spec.raise fun t h => hearly t h
  | ok fd =>
      rw [hr fd rfl]
      refine Spec.seq (Q := fun r t => Entered s t i ∧
        (r.1.filter isEntry).Perm ((s.tree.files i).entries.map Prod.fst)) (fun t ht => ?_)
        fun entries => Spec.given fun hnames => ?_
      · have hturn := entered_turn henv ht
        refine ⟨hturn, ?_⟩
        have hperm := henv.readdir t.time (t.turn env).tree i (by rw [hturn.files]; exact hdir)
        rw [hturn.files] at hperm
        refine hperm.trans (List.Perm.of_eq (List.filter_eq_self.mpr fun n hn => ?_))
        obtain ⟨e, he, rfl⟩ := List.mem_map.mp hn
        exact hready.valid i (mem_dirsIn_self hi hdir) e he
      obtain ⟨hbelow, -⟩ := hready.below hi hdir hnames
      refine Spec.seq (Q := fun _ s₁ => ∃ s₀ names,
        names.Perm ((s.tree.files i).entries.map Prod.fst) ∧ Entered s s₀ i ∧
          (Done s₀ s₁ depth i names ∨
            Stuck s₀.tree s₁.tree depth i names ∧ ∃ e, s₁.ex = s₀.ex.or (some e)))
        (fun t ht => ?_) fun _ => ?_
      · have houtcome := @loop_outcome depth i (fun n => visit i (path ++ [n]))
          (fun s n h => ?_) entries.1 t (by rw [ht.files]; exact hbelow)
        · unfold Outcome at houtcome
          split at houtcome
          · next heq =>
              rw [heq]
              exact ⟨t, _, hnames, ht, houtcome⟩
          · next heq =>
              rw [heq]
              exact ⟨t, _, hnames, ht, houtcome.toTouches⟩
        · have hname : filename (path ++ [n]) = n := by
            simp only [filename, List.getLast?_append, List.getLast?_singleton, Option.some_or,
              Option.getD_some]
          have := hvisit s i (path ++ [n])
          rw [hname] at this
          exact this h
      · cases entries.2 with
        | none => exact Spec.ret fun _ h => h
        | some code =>
            refine Spec.raise fun s₁ h => ?_
            obtain ⟨s₀, names, hperm, hentered, hdone | ⟨hstuck, -⟩⟩ := h
            · exact ⟨s₀, names, hperm, hentered, hdone.gone.toTouches⟩
            · exact ⟨s₀, names, hperm, hentered, hstuck.toTouches⟩

/-- A file. -/
theorem unlinkLast_leaf {s s₁ : Deleting}
    (hready : Ready (isEntry · = true) s.tree.files (depth + 1) dir [filename path])
    (hi : (s.tree.files dir).child (filename path) = some i)
    (hfile : (s.tree.files i).isDirectory = false) (htree : s₁.tree = s.tree) (hex : s₁.ex = s.ex)
    (hbytes : s₁.bytesFreed = s.bytesFreed + UInt64.ofNat
      (likely s.tree.sizes s.tree.nlink (leavesIn s.tree.files (depth + 1) dir [filename path]))) :
    Outcome s (depth + 1) dir [filename path] (unlinkLast env dir path false s₁) := by
  have hunlink : unlinkat dir (filename path) false s₁.tree = .ok (.unlink dir (filename path) i) := by
    unfold unlinkat
    rw [htree, nameAt_eq_ok.mpr hi]
    cases hentry : s.tree.files i with
    | directory _ =>
        rw [hentry] at hfile
        cases hfile
    | symlink _ | object _ => simp only [hentry, Bool.false_eq_true, if_false]
  rcases unlinkLast_run henv false s₁ with ⟨c, s', hc, hrun, htree', hbytes', hex'⟩ |
    ⟨e, s', hrun, htree', ⟨hc, -⟩ | hex'⟩
  · rw [hunlink] at hc
    cases hc
    rw [hrun]
    refine Or.inl ⟨?_, hbytes'.trans hbytes, hex'.trans hex⟩
    rw [htree', htree]
    exact gone_leaf hready hi hfile
  · rw [hunlink] at hc
    cases hc
  · rw [hrun]
    refine Or.inr ⟨⟨?_, _, List.mem_singleton.mpr rfl, ?_⟩, e, by rw [hex', hex]⟩
    · rw [htree', htree]
      exact .refl _ hready.directory
    · rw [htree', htree]

/-- A directory that has been gone through. -/
theorem unlinkLast_directory {s s₀ s₁ : Deleting} {names : List Bytes}
    (hready : Ready (isEntry · = true) s.tree.files (depth + 1) dir [filename path])
    (hi : (s.tree.files dir).child (filename path) = some i)
    (hdir : (s.tree.files i).isDirectory = true)
    (hnames : names.Perm ((s.tree.files i).entries.map Prod.fst)) (hentered : Entered s s₀ i)
    (h : Done s₀ s₁ depth i names ∨
      Stuck s₀.tree s₁.tree depth i names ∧ ∃ e, s₁.ex = s₀.ex.or (some e)) :
    Outcome s (depth + 1) dir [filename path] (unlinkLast env dir path true s₁) := by
  have hstuck : ∀ s' : Deleting, Touches s₀.tree s₁.tree depth i names → s'.tree = s₁.tree →
      Stuck s.tree s'.tree (depth + 1) dir [filename path] := by
    intro s' htouches htree
    obtain ⟨habove, hsame⟩ := htouches.above hready hi hdir hnames hentered
    rw [htree]
    exact ⟨habove, _, List.mem_singleton.mpr rfl, by rw [hsame]⟩
  have hchild : ∀ htouches : Touches s₀.tree s₁.tree depth i names,
      (s₁.tree.files dir).child (filename path) = some i := by
    intro htouches
    rw [(htouches.above hready hi hdir hnames hentered).2]
    exact hi
  rcases h with hdone | ⟨hleft, e₁, he₁⟩
  · have hempty := hdone.gone.empty (hentered.files ▸ hready.keys_at hi hdir)
      (hentered.files ▸ hnames)
    have hunlink : unlinkat dir (filename path) true s₁.tree =
        .ok (.unlink dir (filename path) i) := by
      unfold unlinkat
      rw [nameAt_eq_ok.mpr (hchild hdone.gone.toTouches)]
      simp only [hempty, if_true]
    rcases unlinkLast_run henv true s₁ with ⟨c, s', hc, hrun, htree', hbytes', hex'⟩ |
      ⟨e, s', hrun, htree', ⟨hc, -⟩ | hex'⟩
    · rw [hunlink] at hc
      cases hc
      rw [hrun]
      exact Or.inl (hdone.above hready hi hdir hnames hentered htree' hbytes' hex')
    · rw [hunlink] at hc
      cases hc
    · rw [hrun]
      exact Or.inr ⟨hstuck s' hdone.gone.toTouches htree', e, by rw [hex', hdone.ex, hentered.ex]⟩
  · have hunlink := hleft.unlinkat (fun n hn => ?_) (hchild hleft.toTouches)
    · rcases unlinkLast_run henv true s₁ with ⟨c, s', hc, hrun, htree', hbytes', hex'⟩ |
        ⟨e, s', hrun, htree', ⟨hc, -⟩ | hex'⟩
      · rw [hunlink] at hc
        cases hc
      · rw [hunlink] at hc
        cases hc
      · rw [hrun]
        refine Or.inr ⟨hstuck s' hleft.toTouches htree', e₁, ?_⟩
        rw [hex', he₁, hentered.ex, Option.or_assoc]
        rfl
    · obtain ⟨e, he, rfl⟩ := List.mem_map.mp (hnames.mem_iff.mp hn)
      rw [hentered.files]
      exact ⟨e.2, (Inode.child_eq_some_of_nodup (hready.keys_at hi hdir)).mpr he⟩

/-- `_deletePath`, by induction on the depth of the tree. -/
theorem deletePathAt_outcome (depth : Nat) (s : Deleting) (dir : Nat) (path : NodePath)
    (hready : Ready (isEntry · = true) s.tree.files depth dir [filename path]) :
    Outcome s depth dir [filename path] (deletePathAt env depth dir path s) := by
  -- on the depth of the tree; what is below a directory is one level less deep
  induction depth generalizing s dir path with
  | zero =>
      obtain ⟨i, -, hfits⟩ := hready.child _ (List.mem_singleton.mpr rfl)
      exact hfits.elim
  | succ depth ih =>
      obtain ⟨i, hi, -⟩ := hready.child _ (List.mem_singleton.mpr rfl)
      have htree := henv.turn s
      let st : Stat := {
        directory := (s.tree.files i).isDirectory
        accessible := s.tree.accessible i
        nlink := s.tree.nlink i
        size := sizeOf (s.tree.files i) }
      have hstat : fstatat dir (filename path) s.tree = .ok st := by
        unfold fstatat
        rw [nameAt_eq_ok.mpr hi]
        rfl
      obtain ⟨r, hrun, hr⟩ := look_alone henv (fstatat dir (filename path)) s
        (Q := fun r => r = .ok st ∨ ∃ code, r = .error (.other code))
        (fun code => Or.inr ⟨code, rfl⟩) (Or.inl hstat)
      rw [deletePathAt, Effect.bind_of_ok hrun]
      rcases hr with rfl | ⟨code, rfl⟩
      -- a leaf is unlinked, a directory is cleared first
      · simp only
        rw [Effect.modify_bind]
        cases hfile : (s.tree.files i).isDirectory with
        | false =>
            have hst : st.directory = false := hfile
            rw [hst]
            refine unlinkLast_leaf henv hready hi hfile htree rfl ?_
            rw [leavesIn_single hi, leaves, if_neg (by rw [hfile]; exact Bool.false_ne_true),
              likely_single]
            change s.bytesFreed + likelyFreed st = _
            unfold likelyFreed
            rw [hst]
            simp only [Bool.false_eq_true, if_false]
            congr 1
            split <;> rfl
        | true =>
            have hst : st.directory = true := hfile
            rw [hst]
            simp only [if_true]
            let s₂ : Deleting := { s.turn env with
              bytesFreed := (s.turn env).bytesFreed + likelyFreed st }
            have htree₂ : s₂.tree = s.tree := htree
            have hbytes₂ : s₂.bytesFreed = s.bytesFreed := by
              change s.bytesFreed + likelyFreed st = _
              unfold likelyFreed
              rw [if_pos hst]
              exact UInt64.add_zero _
            have henters : ∀ s₀, Entered s₂ s₀ i → Entered s s₀ i := fun s₀ h =>
              ⟨by rw [h.files, htree₂], by rw [h.nlink, htree₂], by rw [← htree₂]; exact h.accessible,
                by rw [h.bytesFreed, hbytes₂], h.ex⟩
            -- the induction goes through the loop over the entries
            have hclear := clearDirectory_outcome henv (deletePathAt env depth)
              (fun s fd p h => ih s fd p h) (s := s₂) (by rw [htree₂]; exact hready)
              (by rw [htree₂]; exact hi) (by rw [htree₂]; exact hfile) st.accessible s₂ rfl
            rw [htree₂] at hclear
            change Outcome s (depth + 1) dir [filename path]
              ((clearDirectory env (deletePathAt env depth) dir path st.accessible >>= fun _ =>
                unlinkLast env dir path true) s₂)
            rw [Effect.bind_run]
            split
            · next heq =>
                rw [heq] at hclear
                obtain ⟨s₀, names, hnames, hentered, hinner⟩ := hclear
                exact unlinkLast_directory henv hready hi hfile hnames (henters s₀ hentered) hinner
            · next heq =>
                rw [heq] at hclear
                obtain ⟨s₀, names, hnames, hentered, htouches⟩ := hclear
                obtain ⟨habove, hsame⟩ := htouches.above hready hi hfile hnames
                  (henters s₀ hentered)
                exact ⟨habove, _, List.mem_singleton.mpr rfl, by rw [hsame]⟩
      -- fstatat itself failed
      · have hleft : Stuck s.tree (s.turn env).tree (depth + 1) dir [filename path] := by
          rw [htree]
          exact ⟨.refl _ hready.directory, _, List.mem_singleton.mpr rfl, rfl⟩
        exact hleft

end Run

/-- How often the size of a file is counted when that many of its names are
    removed. -/
def counted (nlink removed : Nat) : Nat :=
  if nlink = removed then min removed 2 else if nlink = removed + 1 then min removed 1 else 0

/-- Nobody else changes anything; calls may fail.  If `deletePath` returns, the
    path and all that was below it are gone, and nothing else has changed but the
    link counts of the files.  The bytes it reports are the sizes of the files
    that have lost their last name, twice if they had several, and of those that
    have one name left.  If it throws, the path is still there, and nothing
    outside of it has changed. -/
theorem deletePath_alone {env : Surroundings} (henv : Alone env) (depth dir i : Nat)
    (path : NodePath) (s : Deleting) (hi : (s.tree.files dir).child (filename path) = some i)
    (hready : Ready (isEntry · = true) s.tree.files depth dir [filename path])
    (hlinks : ∀ x, (leaves s.tree.files depth i).count x ≤ s.tree.nlink x) :
    match deletePath env depth (.ok dir) path s with
    | .ok _ s' => Gone s.tree s'.tree depth dir [filename path] ∧
        s'.bytesFreed = UInt64.ofNat (∑ x ∈ (leaves s.tree.files depth i).toFinset,
          sizeOf (s.tree.files x) *
            counted (s.tree.nlink x) ((leaves s.tree.files depth i).count x))
    | .error _ s' => Stuck s.tree s'.tree depth dir [filename path] := by
  have houtcome := deletePathAt_outcome henv depth { s with bytesFreed := 0, ex := none } dir path
    hready
  have hlikely : likely s.tree.sizes s.tree.nlink (leavesIn s.tree.files depth dir [filename path]) =
      ∑ x ∈ (leaves s.tree.files depth i).toFinset, sizeOf (s.tree.files x) *
        counted (s.tree.nlink x) ((leaves s.tree.files depth i).count x) := by
    rw [leavesIn_single hi]
    exact Finset.sum_congr rfl fun x _ => by rw [times_of_le (hlinks x)]; rfl
  unfold deletePath
  rw [Effect.modify_bind]
  simp only
  rw [Effect.modify_bind, Effect.bind_run]
  unfold Outcome at houtcome
  split at houtcome
  · next heq =>
      rw [heq]
      simp only
      rcases houtcome with hdone | ⟨hstuck, e, he⟩
      · rw [Effect.bind_of_ok (Effect.get_run _), hdone.ex]
        refine ⟨hdone.gone, ?_⟩
        rw [hdone.bytesFreed, hlikely]
        exact UInt64.zero_add _
      · rw [Effect.bind_of_ok (Effect.get_run _), he]
        exact hstuck
  · next heq =>
      rw [heq]
      exact houtcome

namespace Sample

/-- `/x` with a file under two of its three names and a directory that is not
    accessible. -/
def tree : Tree where
  files
    | 0 => .directory [(ascii "x", 1), (ascii "y", 2)]
    | 1 => .directory [(ascii "a", 2), (ascii "b", 2), (ascii "d", 3)]
    | 2 => .object (.regular false (ascii "abc"))
    | 3 => .directory [(ascii "f", 4)]
    | _ => .symlink (ascii "/y")
  nlink x := if x = 2 then 3 else 1
  accessible x := x ≠ 3

/-- Nobody else is there. -/
def env : Surroundings where
  others _ t := t
  fails _ := none
  readdir _ t d := (ascii "." :: ascii ".." :: (t.files d).entries.map Prod.fst, none)
  haveFchmodat2 := true
  haveProc := true
  follow _ _ _ := .error .noent

theorem alone_env : Alone env where
  others _ _ := rfl
  readdir n t d _ := by
    change ((ascii "." :: ascii ".." :: (t.files d).entries.map Prod.fst).filter isEntry).Perm _
    rw [List.filter_cons_of_neg (by decide), List.filter_cons_of_neg (by decide)]

def start : Deleting where
  tree := tree
  bytesFreed := 7
  ex := none
  time := 0
  changes := []

theorem ready_tree : Ready (isEntry · = true) start.tree.files 3 0 [ascii "x"] where
  directory := rfl
  distinct := List.nodup_singleton _
  child n hn := by
    rw [List.mem_singleton.mp hn]
    exact ⟨1, by decide, by simp [Fits, start, tree, Inode.entries]⟩
  once := by decide
  keys := by decide
  valid := by decide

end Sample

theorem deletePath_alone_hard_links :
    ∃ s', deletePath Sample.env 3 (.ok 0) [ascii "x"] Sample.start = .ok () s' ∧
      Gone Sample.tree s'.tree 3 0 [ascii "x"] ∧ s'.bytesFreed = 5 := by
  have hlinks : ∀ x, (leaves Sample.start.tree.files 3 1).count x ≤ Sample.start.tree.nlink x := by
    intro x
    have hleaves : leaves Sample.start.tree.files 3 1 = [2, 2, 4] := by decide
    rw [hleaves]
    change _ ≤ if x = 2 then 3 else 1
    by_cases hx : x = 2
    · rw [if_pos hx, hx]
      decide
    · rw [if_neg hx]
      by_cases hx' : x = 4
      · rw [hx']
        decide
      · rw [List.count_eq_zero_of_not_mem (by simp [hx, hx'])]
        exact Nat.zero_le 1
  have halone := deletePath_alone Sample.alone_env 3 0 1 [ascii "x"] Sample.start (by decide)
    Sample.ready_tree hlinks
  have hreturns : Effect.returns (deletePath Sample.env 3 (.ok 0) [ascii "x"] Sample.start) = true := by
    decide +kernel
  obtain ⟨⟨⟩, s', hrun⟩ := Effect.ok_of_returns hreturns
  rw [hrun] at halone
  refine ⟨s', hrun, halone.1, halone.2.trans ?_⟩
  decide +kernel

end DeletePath
end NixStore
