/-
  NixStore.Util.CanonPath

  `CanonPath` (`libutil/canon-path.{hh,cc}`) as its text, and the paths that
  its components spell.

  What is pushed one component at a time is the text of the list of components
  (`push_ofComponents`), and two lists of names have different texts
  (`ofComponents_inj`).
-/

import NixStore.Store.Path
import NixStore.Util.MemorySourceAccessor

namespace NixStore

-- ============================================================================
-- CanonPath
-- ============================================================================

/-- `CanonPath`. -/
structure CanonPath where
  path : Bytes
deriving DecidableEq

namespace CanonPath

/-- `CanonPath::root`. -/
def root : CanonPath := ⟨ascii "/"⟩

/-- `CanonPath::isRoot`. -/
def isRoot (p : CanonPath) : Bool := p.path.length ≤ 1

/-- `CanonPath::abs`. -/
def abs (p : CanonPath) : Bytes := p.path

/-- `CanonPath::rel`. -/
def rel (p : CanonPath) : Bytes := p.path.drop 1

/-- `ensureNoNullBytes`.  The message shows a NUL as its picture. -/
def ensureNoNullBytes (s : Bytes) : Except Error Unit :=
  let str := String.join (s.map fun b => if b = 0 then "␀" else showBytes [b])
  throwIf (0 ∈ s) (.error s!"path segment '{str}' must not contain null (\\0) bytes")

/-- `CanonPath::push`, and `operator/` with a component. -/
def push (p : CanonPath) (c : Bytes) : Except Error CanonPath := do
  throwIf (0x2f ∈ c) (.assertion "c.find('/') == c.npos")
  throwIf (c = ascii "." ∨ c = ascii "..") (.assertion "c != \".\" && c != \"..\"")
  ensureNoNullBytes c
  pure ⟨if p.isRoot then p.path ++ c else p.path ++ 0x2f :: c⟩

/-- `CanonPath::extend`, and `operator/` with a `CanonPath`. -/
def extend (p x : CanonPath) : CanonPath :=
  if x.isRoot then p else if p.isRoot then ⟨p.path ++ x.rel⟩ else ⟨p.path ++ x.abs⟩

/-- The path with these components. -/
def ofComponents (q : NodePath) : CanonPath := ⟨renderPath q⟩

-- ============================================================================
-- Components
-- ============================================================================

theorem ofComponents_of_ne_nil {q : NodePath} (h : q ≠ []) :
    (ofComponents q).path = q.flatMap fun c => 0x2f :: c := if_neg h

theorem isRoot_ofComponents {q : NodePath} (hq : ∀ c ∈ q, c ≠ []) :
    (ofComponents q).isRoot = decide (q = []) := by
  cases q with
  | nil => rfl
  | cons c q =>
      have hc : 0 < c.length := List.length_pos_iff.mpr (hq c List.mem_cons_self)
      rw [isRoot, ofComponents_of_ne_nil (List.cons_ne_nil _ _), List.flatMap_cons,
        decide_eq_false (List.cons_ne_nil _ _), decide_eq_false_iff_not, List.length_append,
        List.length_cons]
      omega

/-- A name is pushed as the last component. -/
theorem push_ofComponents {q : NodePath} {c : Bytes} (hq : ∀ c ∈ q, c ≠ [])
    (hc : NormalComponent c) (hnul : 0 ∉ c) :
    (ofComponents q).push c = .ok (ofComponents (q ++ [c])) := by
  obtain ⟨-, hdot, hdotdot, hslash⟩ := hc
  have htext : (if (ofComponents q).isRoot then (ofComponents q).path ++ c
      else (ofComponents q).path ++ 0x2f :: c) = (ofComponents (q ++ [c])).path := by
    rw [isRoot_ofComponents hq,
      ofComponents_of_ne_nil (List.append_ne_nil_of_right_ne_nil q (List.cons_ne_nil c []))]
    cases q with
    | nil => exact (List.append_nil (0x2f :: c)).symm
    | cons d q =>
        rw [decide_eq_false (List.cons_ne_nil _ _), if_neg Bool.false_ne_true,
          ofComponents_of_ne_nil (List.cons_ne_nil _ _), List.flatMap_append,
          List.flatMap_singleton]
  rw [push, throwIf, if_neg hslash, ok_bind, throwIf, if_neg (by rw [not_or]; exact ⟨hdot, hdotdot⟩),
    ok_bind, ensureNoNullBytes, throwIf, if_neg hnul, ok_bind, htext]
  rfl

/-- One path below another. -/
theorem extend_ofComponents {q r : NodePath} (hq : ∀ c ∈ q, c ≠ []) (hr : ∀ c ∈ r, c ≠ []) :
    (ofComponents q).extend (ofComponents r) = ofComponents (q ++ r) := by
  rw [extend, isRoot_ofComponents hq, isRoot_ofComponents hr]
  cases r with
  | nil => rw [decide_eq_true rfl, if_pos rfl, List.append_nil]
  | cons c r =>
      rw [decide_eq_false (List.cons_ne_nil _ _), if_neg Bool.false_ne_true]
      cases q with
      | nil => rfl
      | cons d q =>
          rw [decide_eq_false (List.cons_ne_nil _ _), if_neg Bool.false_ne_true]
          show CanonPath.mk ((d :: q).flatMap (fun c => 0x2f :: c)
            ++ (c :: r).flatMap fun c => 0x2f :: c) = _
          rw [← List.flatMap_append]
          rfl

/-- Paths with different components have different texts. -/
theorem ofComponents_inj {q r : NodePath} (hq : ∀ c ∈ q, NormalComponent c)
    (hr : ∀ c ∈ r, NormalComponent c) (h : ofComponents q = ofComponents r) : q = r := by
  have hread : ∀ {q : NodePath}, (∀ c ∈ q, NormalComponent c) →
      canonPath (ofComponents q).path = .ok q := by
    intro q hq
    cases q with
    | nil => rfl
    | cons c q =>
        rw [ofComponents_of_ne_nil (List.cons_ne_nil _ _), flatMap_slash,
          canonPath_intercalate (List.cons_ne_nil _ _) fun c hc => (hq c hc).2.2.2,
          foldl_canonStep hq, List.nil_append]
  have hsame := hread hq
  rw [h, hread hr] at hsame
  exact (Except.ok.inj hsame).symm

end CanonPath

end NixStore
