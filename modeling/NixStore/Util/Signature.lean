/-
  NixStore.Util.Signature

  Signatures and their texts (`libutil/signature.cc`), and the
  space-separated list of them that the database keeps.
-/

import NixStore.Util.Hash
import NixStore.Lib.OrderedSet
import Mathlib.Data.List.Lex
import Mathlib.Data.List.TakeWhile
import Mathlib.Data.Prod.Lex

namespace NixStore

/-- `tokenizeString(s, separators)` for a single separator: the maximal runs
    without it. -/
def tokenizeString (s : Bytes) (separator : UInt8) : List Bytes :=
  (s.splitOn separator).filter (· ≠ [])

/-- `concatStringsSep`. -/
def concatStringsSep (sep : Bytes) (ss : List Bytes) : Bytes := sep.intercalate ss

/-- `Signature`. -/
structure Signature where
  keyName : Bytes
  sig : Bytes
deriving DecidableEq

namespace Signature

/-- Signatures are ordered by key name and then by signature. -/
instance : LinearOrder Signature :=
  LinearOrder.lift' (fun s => toLex (s.keyName.map UInt8.toNat, s.sig.map UInt8.toNat)) (by
    intro a b h
    obtain ⟨hkey, hsig⟩ := Prod.mk.inj (toLex.injective h)
    have hinj := List.map_injective_iff.mpr fun _ _ => UInt8.toNat_inj.mp
    obtain ⟨keyName, sig⟩ := a
    obtain ⟨keyName', sig'⟩ := b
    exact Signature.mk.injEq .. ▸ ⟨hinj hkey, hinj hsig⟩)

/-- `Signature::parse`. -/
def parse (s : Bytes) : Except Error Signature :=
  match splitPrefixTo s 0x3a with
  | none => .error (.format "signature is corrupt")
  | some (keyName, rest) => do
      throwIf (keyName = []) (.format "signature is corrupt")
      let sig ← Base64.decode rest
      throwIf (sig = []) (.format "signature is corrupt")
      pure { keyName, sig }

/-- `Signature::to_string`. -/
def toText (s : Signature) : Bytes := s.keyName ++ 0x3a :: Base64.encode s.sig

/-- `Signature::toStrings`. -/
def toStrings (sigs : Finset Signature) : List Bytes := (OrderedSet.inOrder sigs).map toText

/-- `Signature::parseMany`.  Where several strings are malformed, which of them
    is reported is not modelled. -/
def parseMany : List Bytes → Except Error (Finset Signature)
  | [] => .ok ∅
  | s :: ss => do
      let sig ← parse s
      let sigs ← parseMany ss
      pure (insert sig sigs)

/-! ## What is read back -/

/-- A signature whose text can be told apart in a space-separated list. -/
def Listable (s : Signature) : Prop :=
  s.keyName ≠ [] ∧ s.sig ≠ [] ∧ 0x3a ∉ s.keyName ∧ 0x20 ∉ s.keyName ∧ 0 ∉ s.keyName

/-- A signature that is told apart on its own. -/
theorem parse_toText_alone {s : Signature} (hkey : s.keyName ≠ []) (hcolon : 0x3a ∉ s.keyName)
    (hsig : s.sig ≠ []) : parse s.toText = .ok s := by
  rw [parse, toText, splitPrefixTo_append hcolon]
  simp only [throwIf, if_neg hkey, Base64.decode_encode, ok_bind, if_neg hsig]
  rfl

theorem parse_toText {s : Signature} (h : s.Listable) : parse s.toText = .ok s :=
  parse_toText_alone h.1 h.2.2.1 h.2.1

theorem mem_splitPrefixTo {s front rest : Bytes} {separator : UInt8}
    (h : splitPrefixTo s separator = some (front, rest)) :
    separator ∉ front ∧ ∀ b ∈ front, b ∈ s := by
  unfold splitPrefixTo at h
  by_cases hmem : separator ∈ s
  · rw [if_pos hmem, Option.some.injEq, Prod.mk.injEq] at h
    obtain ⟨rfl, -⟩ := h
    refine ⟨?_, fun b hb => (List.takeWhile_sublist _).mem hb⟩
    intro h
    simpa using List.mem_takeWhile_imp h
  · rw [if_neg hmem] at h
    cases h

/-- What `parse` returns has a proper key name. -/
theorem parse_eq_ok {t : Bytes} {s : Signature} (h : parse t = .ok s) :
    s.keyName ≠ [] ∧ s.sig ≠ [] ∧ 0x3a ∉ s.keyName ∧ ∀ b ∈ s.keyName, b ∈ t := by
  unfold parse at h
  cases hsplit : splitPrefixTo t 0x3a with
  | none => rw [hsplit] at h; cases h
  | some r =>
      obtain ⟨keyName, rest⟩ := r
      rw [hsplit] at h
      simp only [bind_eq_ok, throwIf_eq_ok, pure_eq_ok, Except.ok.injEq] at h
      obtain ⟨-, hkey, sig, -, -, hsig, rfl⟩ := h
      obtain ⟨hcolon, hmem⟩ := mem_splitPrefixTo hsplit
      exact ⟨hkey, hsig, hcolon, hmem⟩

theorem mem_parseMany {ts : List Bytes} {sigs : Finset Signature} (h : parseMany ts = .ok sigs)
    {s : Signature} (hs : s ∈ sigs) : ∃ t ∈ ts, parse t = .ok s := by
  induction ts generalizing sigs with
  | nil =>
      cases h
      exact absurd hs (Finset.notMem_empty s)
  | cons t ts ih =>
      simp only [parseMany, bind_eq_ok, pure_eq_ok, Except.ok.injEq] at h
      obtain ⟨sig, hsig, sigs', hsigs', rfl⟩ := h
      rcases Finset.mem_insert.mp hs with rfl | hs
      · exact ⟨t, List.mem_cons_self, hsig⟩
      · obtain ⟨u, hu, hparse⟩ := ih hsigs' hs
        exact ⟨u, List.mem_cons_of_mem _ hu, hparse⟩

theorem parseMany_map {l : List Signature} (h : ∀ s ∈ l, s.Listable) :
    parseMany (l.map toText) = .ok l.toFinset := by
  induction l with
  | nil => rfl
  | cons s l ih =>
      rw [List.map_cons, parseMany, parse_toText (h s List.mem_cons_self), ok_bind,
        ih fun s hs => h s (List.mem_cons_of_mem _ hs), ok_bind, List.toFinset_cons]
      rfl

/-- The text of a listable signature has neither spaces nor NUL. -/
theorem toText_clean {s : Signature} (h : s.Listable) : 0x20 ∉ s.toText ∧ 0 ∉ s.toText := by
  obtain ⟨-, -, -, hspace, hnul⟩ := h
  have hbase (c : UInt8) (hc : c ∉ Base64.chars) (hpad : c ≠ 0x3d) (hcolon : c ≠ 0x3a)
      (hkey : c ∉ s.keyName) : c ∉ s.toText := by
    intro hmem
    rcases List.mem_append.mp hmem with hmem | hmem
    · exact hkey hmem
    · rcases List.mem_cons.mp hmem with hmem | hmem
      · exact hcolon hmem
      · rcases Base64.encode_mem hmem with hmem | hmem
        · exact hc hmem
        · exact hpad hmem
  exact ⟨hbase 0x20 (by decide) (by decide) (by decide) hspace,
    hbase 0 (by decide) (by decide) (by decide) hnul⟩

theorem toText_ne_nil (s : Signature) : s.toText ≠ [] := by
  simp [toText]

end Signature

end NixStore
