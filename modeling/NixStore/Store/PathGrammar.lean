/-
  NixStore.Store.PathGrammar

  The grammar of base names, and what `StorePath::StorePath`
  (`libstore/path.cc`) accepts.

  `checkName` follows the grammar of names (`checkName_iff`) and the hash part
  is checked character by character, but nothing looks at the byte between
  them.  So the constructor accepts the grammar exactly where that byte is a
  dash (`ofBaseName_grammar_iff`).
-/

import NixStore.Store.Path

namespace NixStore

namespace StorePath

-- ============================================================================
-- Grammar
-- ============================================================================

/-- The characters of a name. -/
def nameChars : Bytes :=
  ascii "0123456789abcdefghijklmnopqrstuvwxyzABCDEFGHIJKLMNOPQRSTUVWXYZ+-._?="

/-- The part of a name before its first dash. -/
def firstComponent (name : Bytes) : Bytes := name.takeWhile (· ≠ 0x2d)

/-- A name. -/
structure NameGrammar (name : Bytes) : Prop where
  nonempty : 1 ≤ name.length
  short : name.length ≤ 211
  chars : ∀ c ∈ name, c ∈ nameChars
  notDot : firstComponent name ≠ ascii "."
  notDotDot : firstComponent name ≠ ascii ".."

/-- A hash part, a byte and a name. -/
structure Parts (s hash : Bytes) (separator : UInt8) (name : Bytes) : Prop where
  split : s = hash ++ separator :: name
  length : hash.length = 32
  nix32 : ∀ c ∈ hash, c ∈ BaseNix32.characters
  name : NameGrammar name

/-- The base name of a store path. -/
def PathGrammar (s : Bytes) : Prop := ∃ hash name, Parts s hash 0x2d name

-- ============================================================================
-- The checks
-- ============================================================================

theorem byte_cases {P : UInt8 → Prop} (h : ∀ n < 256, P (UInt8.ofNat n)) (c : UInt8) : P c := by
  have := h c.toNat c.toNat_lt
  rwa [UInt8.ofNat_toNat] at this

theorem isNameChar_iff (c : UInt8) : isNameChar c = true ↔ c ∈ nameChars := by
  revert c
  apply byte_cases
  decide +kernel

theorem isBase32Char_iff (c : UInt8) : isBase32Char c = true ↔ c ∈ BaseNix32.characters := by
  revert c
  apply byte_cases
  decide +kernel

/-- What is behind the first component is nothing or starts with a dash. -/
theorem firstComponent_split (name : Bytes) : name = firstComponent name ∨
    ∃ rest, name = firstComponent name ++ 0x2d :: rest := by
  have hsplit : firstComponent name ++ name.dropWhile (· ≠ 0x2d) = name :=
    List.takeWhile_append_dropWhile
  cases hrest : name.dropWhile (· ≠ 0x2d) with
  | nil =>
      rw [hrest, List.append_nil] at hsplit
      exact .inl hsplit.symm
  | cons c rest =>
      have hdash : c = 0x2d := by
        have := List.head?_dropWhile_not (· ≠ (0x2d : UInt8)) name
        rw [hrest] at this
        simpa using this
      rw [hrest, hdash] at hsplit
      exact .inr ⟨rest, hsplit.symm⟩

/-- A name that starts with a dot is rejected for its first component. -/
theorem checkDots_iff (name : Bytes) : checkDots name = .ok () ↔
    firstComponent name ≠ ascii "." ∧ firstComponent name ≠ ascii ".." := by
  have hdot : ascii "." = [0x2e] := rfl
  have hdotdot : ascii ".." = [0x2e, 0x2e] := rfl
  rw [hdot, hdotdot]
  unfold checkDots
  split
  · exact iff_of_false nofun fun h => h.1 rfl
  · exact iff_of_false nofun fun h => h.1 (by simp [firstComponent])
  · exact iff_of_false nofun fun h => h.2 rfl
  · exact iff_of_false nofun fun h => h.2 (by simp [firstComponent])
  · next h₁ h₂ h₃ h₄ =>
      refine iff_of_true rfl ⟨fun h => ?_, fun h => ?_⟩
      · rcases firstComponent_split name with heq | ⟨rest, heq⟩
        · exact h₁ (heq.trans h)
        · rw [h] at heq
          exact h₂ rest heq
      · rcases firstComponent_split name with heq | ⟨rest, heq⟩
        · exact h₃ (heq.trans h)
        · rw [h] at heq
          exact h₄ rest heq

theorem checkName_iff (name : Bytes) : checkName name = .ok () ↔ NameGrammar name := by
  simp only [checkName, bind_eq_ok, throwIf_eq_ok, not_exists, not_and, Bool.not_eq_false,
    isNameChar_iff]
  constructor
  · rintro ⟨-, hne, -, hshort, ⟨⟩, hdots, hchars⟩
    obtain ⟨hdot, hdotdot⟩ := (checkDots_iff name).mp hdots
    exact ⟨List.length_pos_iff.mpr hne, Nat.not_lt.mp hshort, hchars, hdot, hdotdot⟩
  · intro h
    exact ⟨(), List.length_pos_iff.mp h.nonempty, (), Nat.not_lt.mpr h.short, (),
      (checkDots_iff name).mpr ⟨h.notDot, h.notDotDot⟩, h.chars⟩

/-- What the constructor accepts. -/
theorem checkBaseName_iff (s : Bytes) : checkBaseName s = .ok () ↔
    ∃ hash separator name, Parts s hash separator name := by
  rw [checkBaseName_eq_ok]
  constructor
  · rintro ⟨hlen, hchars, hname⟩
    have hlt : hashLen < s.length := hlen
    refine ⟨s.take hashLen, s[hashLen], s.drop (hashLen + 1), ?_, ?_, ?_, (checkName_iff _).mp hname⟩
    · rw [← List.drop_eq_getElem_cons hlt, List.take_append_drop]
    · rw [List.length_take]
      exact Nat.min_eq_left (Nat.le_of_lt hlt)
    · exact fun c hc => (isBase32Char_iff c).mp (hchars c hc)
  · rintro ⟨hash, separator, name, rfl, hlen, hnix32, hname⟩
    have hhash : hash.length = hashLen := hlen
    have hrest : (hash ++ separator :: name).drop (hashLen + 1) = name := by
      rw [← hhash, ← List.drop_drop, List.drop_left, List.drop_one, List.tail_cons]
    refine ⟨?_, ?_, ?_⟩
    · rw [List.length_append, List.length_cons]
      omega
    · rw [← hhash, List.take_left]
      exact fun c hc => (isBase32Char_iff c).mpr (hnix32 c hc)
    · rw [hrest]
      exact (checkName_iff name).mpr hname

theorem ofBaseName_isOk_iff (s : Bytes) :
    (∃ p, ofBaseName s = .ok p) ↔ ∃ hash separator name, Parts s hash separator name := by
  rw [← checkBaseName_iff]
  constructor
  · rintro ⟨p, hp⟩
    rw [← baseName_of_ofBaseName hp]
    exact p.valid
  · exact fun h => ⟨⟨s, h⟩, ofBaseName_baseName ⟨s, h⟩⟩

/-- The parts of a base name are where they are. -/
theorem Parts.separator_eq {s hash name : Bytes} {separator : UInt8}
    (h : Parts s hash separator name) : s.getD 32 0 = separator := by
  rw [h.split, List.getD_append_right _ _ _ _ (Nat.le_of_eq h.length), h.length, Nat.sub_self,
    List.getD_cons_zero]

-- ============================================================================
-- Acceptance
-- ============================================================================

/-- A string is accepted as the grammar says, and what is accepted is read back
    when it is printed, unless it has another byte than a dash between a hash
    part and a name. -/
theorem ofBaseName_grammar_iff (s : Bytes) :
    (((∃ p, ofBaseName s = .ok p) ↔ PathGrammar s) ∧
      ∀ p, ofBaseName s = .ok p → ∀ dir : StoreDir,
        dir.parseStorePath (dir.printStorePath p) = .ok p) ↔
    ∀ hash separator name, Parts s hash separator name → separator = 0x2d := by
  rw [ofBaseName_isOk_iff]
  constructor
  · rintro ⟨haccepts, -⟩ hash separator name hparts
    obtain ⟨hash', name', hdash⟩ := haccepts.mp ⟨hash, separator, name, hparts⟩
    rw [← hparts.separator_eq, hdash.separator_eq]
  · intro hdash
    refine ⟨⟨?_, ?_⟩, fun p hp dir => ?_⟩
    · rintro ⟨hash, separator, name, hparts⟩
      cases hdash hash separator name hparts
      exact ⟨hash, name, hparts⟩
    · rintro ⟨hash, name, hparts⟩
      exact ⟨hash, 0x2d, name, hparts⟩
    · have hbase := baseName_of_ofBaseName hp
      obtain ⟨hash, separator, name, hparts⟩ := (ofBaseName_isOk_iff s).mp ⟨p, hp⟩
      refine dir.parseStorePath_print ?_
      have hsep : p.separator = separator := by
        rw [StorePath.separator, hbase]
        exact hparts.separator_eq
      rw [hsep, hdash hash separator name hparts]
      decide

/-- A hash part and a name with a slash between them. -/
def slashed : Bytes := List.replicate 32 0x30 ++ ascii "/x"

theorem ofBaseName_slashed : ∃ p, ofBaseName slashed = .ok p ∧ ¬ PathGrammar slashed ∧
    ∀ dir : StoreDir, ∃ e, dir.parseStorePath (dir.printStorePath p) = .error e := by
  have hvalid : checkBaseName slashed = .ok () := by decide +kernel
  refine ⟨⟨slashed, hvalid⟩, ofBaseName_baseName ⟨slashed, hvalid⟩, ?_, fun dir => ?_⟩
  · rintro ⟨hash, name, hparts⟩
    have hsep := hparts.separator_eq
    rw [show slashed.getD 32 0 = 0x2f by decide] at hsep
    cases hsep
  · have hsep : slashed.getD hashLen 0 = 0x2f := by decide
    exact dir.parseStorePath_slash hsep

end StorePath

end NixStore
