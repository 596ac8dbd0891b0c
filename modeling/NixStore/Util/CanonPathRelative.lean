/-
  NixStore.Util.CanonPathRelative

  `CanonPath::makeRelative` (`libutil/canon-path.cc`), and what the constructor
  from a string and a root makes of its result.

  An iterator into the text of a list of names stands before one of the names
  (`iteratorAt`), so the walk over two paths is a walk over two lists.
-/

import NixStore.Util.CanonPathText
import Mathlib.Data.List.Induction

namespace NixStore

namespace CanonPath

-- ============================================================================
-- makeRelative
-- ============================================================================

/-- The loop over the components that two paths have in common.  An iterator is
    at the end when nothing is left of the text. -/
def skipCommon (p1 p2 : Iterator) : Iterator × Iterator :=
  if p1.remaining ≠ [] ∧ p2.remaining ≠ [] ∧ p1.deref = p2.deref then skipCommon p1.next p2.next
  else (p1, p2)
termination_by p1.remaining.length
decreasing_by
  rename_i h
  have hpos : 0 < p1.remaining.length := List.length_pos_iff.mpr h.1
  rw [Iterator.next, List.length_drop]
  omega

/-- The separator before the next component of a result. -/
def separated (res : Bytes) : Bytes := if res = [] then [] else res ++ ascii "/"

/-- The loop that goes up once for each component left of the first path. -/
def goUp (p1 : Iterator) (res : Bytes) : Bytes :=
  if p1.remaining = [] then res else goUp p1.next (separated res ++ ascii "..")
termination_by p1.remaining.length
decreasing_by
  have hpos : 0 < p1.remaining.length := List.length_pos_iff.mpr ‹_›
  rw [Iterator.next, List.length_drop]
  omega

/-- `CanonPath::makeRelative`. -/
def makeRelative (this path : CanonPath) : Bytes :=
  let (p1, p2) := skipCommon this.begin path.begin
  if p1.remaining = [] ∧ p2.remaining = [] then ascii "."
  else if p1.remaining = [] then p2.remaining
  else
    let res := goUp p1 []
    if p2.remaining = [] then res else separated res ++ p2.remaining

-- ============================================================================
-- Iterators into lists of names
-- ============================================================================

/-- The iterator that has these names before it. -/
def iteratorAt (q : NodePath) : Iterator := ⟨List.intercalate [0x2f] q⟩

theorem begin_ofComponents (q : NodePath) : (ofComponents q).begin = iteratorAt q := by
  cases q with
  | nil => rfl
  | cons c q =>
      rw [CanonPath.begin, rel, ofComponents_of_ne_nil (List.cons_ne_nil c q), flatMap_slash,
        List.intercalate_cons_cons]
      rfl

theorem intercalate_cons (c : Bytes) (q : NodePath) :
    List.intercalate [0x2f] (c :: q) = c ++ q.flatMap fun c => 0x2f :: c := by
  cases q with
  | nil => simp
  | cons d q =>
      rw [flatMap_slash, List.intercalate_cons_cons, List.intercalate_cons_cons, List.append_assoc]
      rfl

theorem remaining_eq_nil {q : NodePath} (hq : ∀ c ∈ q, IsName c) :
    (iteratorAt q).remaining = [] ↔ q = [] := by
  cases q with
  | nil => exact iff_of_true rfl rfl
  | cons c q =>
      refine iff_of_false ?_ (List.cons_ne_nil c q)
      rw [iteratorAt, intercalate_cons]
      exact List.append_ne_nil_of_left_ne_nil (hq c List.mem_cons_self).1.1 _

theorem nextComp_intercalate {c : Bytes} (hc : IsName c) (q : NodePath) :
    nextComp (List.intercalate [0x2f] (c :: q)) = c := by
  have hall : ∀ b ∈ c, (b != 0x2f) = true := by
    intro b hb
    rw [bne_iff_ne]
    rintro rfl
    exact hc.1.2.2.2 hb
  rw [intercalate_cons, nextComp, List.takeWhile_append_of_pos hall]
  cases q with
  | nil => exact List.append_nil c
  | cons d q =>
      rw [List.flatMap_cons, List.cons_append, List.takeWhile_cons]
      exact List.append_nil c

theorem deref_iteratorAt {c : Bytes} (hc : IsName c) (q : NodePath) :
    (iteratorAt (c :: q)).deref = c := nextComp_intercalate hc q

theorem next_iteratorAt {c : Bytes} (hc : IsName c) (q : NodePath) :
    (iteratorAt (c :: q)).next = iteratorAt q := by
  rw [Iterator.next, iteratorAt, nextComp_intercalate hc, intercalate_cons, iteratorAt]
  apply congrArg Iterator.mk
  cases q with
  | nil => exact List.drop_eq_nil_of_le (by simp)
  | cons d q =>
      rw [List.drop_append, List.drop_eq_nil_of_le (Nat.le_succ _), flatMap_slash,
        List.intercalate_cons_cons, Nat.add_sub_cancel_left]
      rfl

/-- The walk stops behind the common front. -/
theorem skipCommon_iteratorAt {q r : NodePath} (hq : ∀ c ∈ q, IsName c) (hr : ∀ c ∈ r, IsName c) :
    ∃ common u v, q = common ++ u ∧ r = common ++ v ∧
      skipCommon (iteratorAt q) (iteratorAt r) = (iteratorAt u, iteratorAt v) := by
  induction q generalizing r with
  | nil =>
      refine ⟨[], [], r, rfl, rfl, ?_⟩
      rw [skipCommon, if_neg fun h => h.1 rfl]
  | cons c q ih =>
      cases r with
      | nil =>
          refine ⟨[], c :: q, [], rfl, rfl, ?_⟩
          rw [skipCommon, if_neg fun h => h.2.1 rfl]
      | cons d r =>
          have hc := hq c List.mem_cons_self
          have hd := hr d List.mem_cons_self
          by_cases hcd : c = d
          · subst hcd
            obtain ⟨common, u, v, rfl, rfl, hrest⟩ :=
              ih (fun c hc => hq c (List.mem_cons_of_mem _ hc))
                fun c hc => hr c (List.mem_cons_of_mem _ hc)
            refine ⟨c :: common, u, v, rfl, rfl, ?_⟩
            rw [skipCommon, if_pos, next_iteratorAt hc, next_iteratorAt hc, hrest]
            refine ⟨?_, ?_, by rw [deref_iteratorAt hc, deref_iteratorAt hc]⟩
            · exact fun h => List.cons_ne_nil _ _ ((remaining_eq_nil hq).mp h)
            · exact fun h => List.cons_ne_nil _ _ ((remaining_eq_nil hr).mp h)
          · refine ⟨[], c :: q, d :: r, rfl, rfl, ?_⟩
            rw [skipCommon, if_neg]
            rintro ⟨-, -, heq⟩
            rw [deref_iteratorAt hc, deref_iteratorAt hd] at heq
            exact hcd heq

-- ============================================================================
-- The text that is returned
-- ============================================================================

/-- Two lists of components with a slash between them. -/
theorem intercalate_append {l m : NodePath} (hl : l ≠ []) (hm : m ≠ []) :
    List.intercalate [0x2f] (l ++ m)
      = List.intercalate [0x2f] l ++ 0x2f :: List.intercalate [0x2f] m := by
  obtain ⟨c, l, rfl⟩ := List.exists_cons_of_ne_nil hl
  obtain ⟨d, m, rfl⟩ := List.exists_cons_of_ne_nil hm
  rw [List.cons_append, intercalate_cons, intercalate_cons, intercalate_cons, List.flatMap_append,
    List.flatMap_cons, List.append_assoc]
  rfl

theorem separated_append {l m : NodePath} (hl : ∀ c ∈ l, c ≠ []) (hm : m ≠ []) :
    separated (List.intercalate [0x2f] l) ++ List.intercalate [0x2f] m
      = List.intercalate [0x2f] (l ++ m) := by
  cases l with
  | nil => rfl
  | cons c l =>
      have hne : List.intercalate [0x2f] (c :: l) ≠ [] := by
        rw [intercalate_cons]
        exact List.append_ne_nil_of_left_ne_nil (hl c List.mem_cons_self) _
      rw [separated, if_neg hne, intercalate_append (List.cons_ne_nil c l) hm, List.append_assoc]
      rfl

theorem ne_nil_of_mem_replicate {n : Nat} {c : Bytes} (h : c ∈ List.replicate n (ascii "..")) :
    c ≠ [] := by
  rw [List.eq_of_mem_replicate h]
  decide

/-- One step up for each component that is left. -/
theorem goUp_iteratorAt {u : NodePath} (hu : ∀ c ∈ u, IsName c) (n : Nat) :
    goUp (iteratorAt u) (List.intercalate [0x2f] (List.replicate n (ascii "..")))
      = List.intercalate [0x2f] (List.replicate (n + u.length) (ascii "..")) := by
  induction u generalizing n with
  | nil =>
      rw [goUp, if_pos ((remaining_eq_nil hu).mpr rfl)]
      rfl
  | cons c u ih =>
      have hstep := @separated_append (List.replicate n (ascii "..")) [ascii ".."]
        (fun c hc => ne_nil_of_mem_replicate hc) (List.cons_ne_nil _ _)
      rw [List.intercalate_singleton, ← List.replicate_succ'] at hstep
      rw [goUp, if_neg fun h => List.cons_ne_nil c u ((remaining_eq_nil hu).mp h),
        next_iteratorAt (hu c List.mem_cons_self), hstep,
        ih (fun d hd => hu d (List.mem_cons_of_mem _ hd)), List.length_cons]
      congr 2
      omega

/-- The components of the text that is returned. -/
theorem makeRelative_eq {q r : NodePath} (hq : ∀ c ∈ q, IsName c) (hr : ∀ c ∈ r, IsName c) :
    ∃ common u v, q = common ++ u ∧ r = common ++ v ∧
      (ofComponents q).makeRelative (ofComponents r)
        = if u = [] ∧ v = [] then ascii "."
          else List.intercalate [0x2f] (List.replicate u.length (ascii "..") ++ v) := by
  obtain ⟨common, u, v, rfl, rfl, hskip⟩ := skipCommon_iteratorAt hq hr
  have hu := (List.forall_mem_append.mp hq).2
  have hv := (List.forall_mem_append.mp hr).2
  refine ⟨common, u, v, rfl, rfl, ?_⟩
  rw [makeRelative, begin_ofComponents, begin_ofComponents, hskip]
  simp only [remaining_eq_nil hu, remaining_eq_nil hv]
  by_cases hunil : u = []
  · subst hunil
    by_cases hvnil : v = []
    · rw [if_pos ⟨rfl, hvnil⟩, if_pos ⟨rfl, hvnil⟩]
    · rw [if_neg fun h => hvnil h.2, if_pos rfl, if_neg fun h : [] = [] ∧ v = [] => hvnil h.2]
      rfl
  · have hup := goUp_iteratorAt hu 0
    rw [Nat.zero_add] at hup
    rw [if_neg fun h => hunil h.1, if_neg hunil, if_neg fun h : u = [] ∧ v = [] => hunil h.1,
      show goUp (iteratorAt u) [] = _ from hup]
    by_cases hvnil : v = []
    · rw [if_pos hvnil, hvnil, List.append_nil]
    · rw [if_neg hvnil]
      exact separated_append (fun c hc => ne_nil_of_mem_replicate hc) hvnil

-- ============================================================================
-- Resolving it again
-- ============================================================================

/-- What comes after a slash is walked from what comes before it. -/
theorem walk_append (comps : List Bytes) (s t : Bytes) :
    walk comps (s ++ 0x2f :: t) = walk (walk comps s) t := by
  rw [walk, List.splitOn_append_cons_self, List.foldl_append]
  rfl

theorem walk_ofComponents {q : NodePath} (hq : ∀ c ∈ q, IsName c) :
    walk [] (ofComponents q).path = q := by
  by_cases hnil : q = []
  · rw [hnil]
    rfl
  · rw [walk, splitOn_ofComponents hnil fun c hc => (hq c hc).1.2.2.2, List.foldl_cons]
    exact foldl_canonStep (fun c hc => (hq c hc).1) []

theorem walk_intercalate (comps : List Bytes) {l : NodePath} (hne : l ≠ [])
    (hl : ∀ c ∈ l, 0x2f ∉ c) :
    walk comps (List.intercalate [0x2f] l) = l.foldl canonStep comps := by
  rw [walk, List.splitOn_intercalate _ hl hne]

/-- Each ".." takes a component away. -/
theorem foldl_goUp (common u : NodePath) :
    (List.replicate u.length (ascii "..")).foldl canonStep (common ++ u) = common := by
  induction u using List.reverseRecOn with
  | nil => exact List.append_nil common
  | append_singleton u c ih =>
      have hstep : canonStep (common ++ (u ++ [c])) (ascii "..") = common ++ u := by
        rw [canonStep, if_neg (by decide), if_pos rfl, ← List.append_assoc, List.dropLast_concat]
      rw [List.length_append, List.length_singleton, List.replicate_succ, List.foldl_cons, hstep, ih]

/-- The text is relative: the root is put in front of it. -/
theorem ofRelative_eq {raw : Bytes} (hraw : raw.head? ≠ some 0x2f) (hnul : 0 ∉ raw)
    {q : NodePath} (hq : ∀ c ∈ q, IsName c) :
    ofRelative raw (ofComponents q) = .ok (ofComponents (walk q raw)) := by
  have hne : (ofComponents q).abs ++ ascii "/" ++ raw ≠ [] := by
    rw [List.append_assoc]
    exact List.append_ne_nil_of_right_ne_nil _ (List.cons_ne_nil _ _)
  have hwalk : walk [] ((ofComponents q).abs ++ ascii "/" ++ raw) = walk q raw := by
    have happend := walk_append [] (ofComponents q).path raw
    rw [walk_ofComponents hq] at happend
    rw [List.append_assoc]
    exact happend
  rw [ofRelative, if_neg hraw, absPathPure_eq hne, ok_bind, ensureNoNullBytes, throwIf,
    if_neg hnul, ok_bind, hwalk]
  rfl

/-- `CanonPath(this.makeRelative(x), this) == x`. -/
theorem ofRelative_makeRelative {a b : CanonPath} (ha : Canonical a) (hb : Canonical b) :
    ofRelative (a.makeRelative b) a = .ok b := by
  obtain ⟨q, hq, rfl⟩ := canonical_iff.mp ha
  obtain ⟨r, hr, rfl⟩ := canonical_iff.mp hb
  obtain ⟨common, u, v, rfl, rfl, hrel⟩ := makeRelative_eq hq hr
  rw [hrel]
  split
  · next hnil =>
      obtain ⟨rfl, rfl⟩ := hnil
      rw [ofRelative_eq (by decide) (by decide) hq]
      rfl
  · next hnil =>
      have hne : List.replicate u.length (ascii "..") ++ v ≠ [] := by
        intro h
        obtain ⟨hrep, hv⟩ := List.append_eq_nil_iff.mp h
        exact hnil ⟨List.length_eq_zero_iff.mp ((List.replicate_eq_nil_iff _).mp hrep), hv⟩
      -- every component is ".." or a name
      have hcomp : ∀ c ∈ List.replicate u.length (ascii "..") ++ v,
          c ≠ [] ∧ 0x2f ∉ c ∧ 0 ∉ c := by
        intro c hc
        rcases List.mem_append.mp hc with hc | hc
        · rw [List.eq_of_mem_replicate hc]
          decide
        · have hname := (List.forall_mem_append.mp hr).2 c hc
          exact ⟨hname.1.1, hname.1.2.2.2, hname.2⟩
      have hhead : (List.intercalate [0x2f] (List.replicate u.length (ascii "..") ++ v)).head?
          ≠ some 0x2f := by
        obtain ⟨c, l, hl⟩ := List.exists_cons_of_ne_nil hne
        obtain ⟨hcne, hslash, -⟩ := hcomp c (by rw [hl]; exact List.mem_cons_self)
        rw [hl, intercalate_cons, List.head?_append_of_ne_nil _ hcne]
        exact fun h => hslash (List.mem_of_head? h)
      have hnul : 0 ∉ List.intercalate [0x2f] (List.replicate u.length (ascii "..") ++ v) := by
        obtain ⟨c, l, hl⟩ := List.exists_cons_of_ne_nil hne
        rw [hl] at hcomp ⊢
        rw [intercalate_cons]
        intro hmem
        rcases List.mem_append.mp hmem with hmem | hmem
        · exact (hcomp c List.mem_cons_self).2.2 hmem
        · obtain ⟨d, hd, hmem⟩ := List.mem_flatMap.mp hmem
          rcases List.mem_cons.mp hmem with hmem | hmem
          · cases hmem
          · exact (hcomp d (List.mem_cons_of_mem _ hd)).2.2 hmem
      rw [ofRelative_eq hhead hnul hq, walk_intercalate _ hne fun c hc => (hcomp c hc).2.1,
        List.foldl_append, foldl_goUp,
        foldl_canonStep (fun c hc => ((List.forall_mem_append.mp hr).2 c hc).1)]

theorem ofRelative_makeRelative_sibling :
    ofRelative ((ofComponents [ascii "a", ascii "b"]).makeRelative (ofComponents [ascii "a", ascii "c"]))
      (ofComponents [ascii "a", ascii "b"]) = .ok (ofComponents [ascii "a", ascii "c"]) :=
  ofRelative_makeRelative (canonical_of_names (by decide)) (canonical_of_names (by decide))

end CanonPath

end NixStore
