/-
  NixStore.Util.HashText

  The texts of a hash are read back, in every format and by every parser of
  `libutil/hash.cc`, and a Nix32 string that is accepted is the text of the
  hash it gives.

  The format is guessed from the length, so the lengths of the three encodings
  have to differ for every algorithm (`baseFromSize_digits`).  The other
  direction rests on the length as well: `BaseNix32::decode` takes a string
  that is too short for the hash, and only the guess turns it away.
-/

import NixStore.Util.Hash

namespace NixStore

namespace Hash

-- ============================================================================
-- Section 1: Parsing what was printed
-- ============================================================================

theorem regularHashSize_pos (algo : HashAlgorithm) : 0 < regularHashSize algo := by
  cases algo <;> decide

theorem bytes_ne (h : Hash) : h.bytes.length ≠ 0 := by
  have hpos := regularHashSize_pos h.algo
  rw [h.size_eq]
  omega

theorem baseFromSize_base64 (h : Hash) : baseFromSize (h.digits .base64) h.algo = .ok .base64 := by
  have hlen : (h.digits .base64).length = Base64.encodedLength (regularHashSize h.algo) := by
    rw [digits, Base64.length_encode, h.size_eq]
  -- no algorithm has a Base64 text as long as one of its other texts
  have hbase16 : Base64.encodedLength (regularHashSize h.algo)
      ≠ Base16.encodedLength (regularHashSize h.algo) := by
    cases h.algo <;> decide
  have hnix32 : Base64.encodedLength (regularHashSize h.algo)
      ≠ BaseNix32.encodedLength (regularHashSize h.algo) := by
    cases h.algo <;> decide
  unfold baseFromSize
  simp only [hlen, if_neg hbase16, if_neg hnix32, if_true]

/-- The guess is right for every text that is not SRI. -/
theorem baseFromSize_digits (h : Hash) {f : HashFormat} (hf : f ≠ .sri) :
    baseFromSize (h.digits f) h.algo = .ok f := by
  cases f with
  | base16 => exact baseFromSize_base16 h
  | nix32 => exact baseFromSize_nix32 h
  | base64 => exact baseFromSize_base64 h
  | sri => exact absurd rfl hf

theorem baseExplicit_digits (h : Hash) (f : HashFormat) :
    (baseExplicit f).1 (h.digits f) = .ok h.bytes := by
  cases f with
  | base16 => exact Base16.decode_encode h.bytes
  | nix32 => exact BaseNix32.decode_encode h.bytes
  | base64 => exact Base64.decode_encode h.bytes
  | sri => exact Base64.decode_encode h.bytes

theorem parseLowLevel_digits (h : Hash) (f : HashFormat) :
    parseLowLevel (h.digits f) h.algo (baseExplicit f) = .ok h :=
  parseLowLevel_of_decode (baseExplicit_digits h f)

/-- A byte that is neither a digit nor padding of any encoding. -/
theorem not_mem_digits (h : Hash) (f : HashFormat) {c : UInt8} (h16 : c ∉ Base16.chars)
    (h32 : c ∉ BaseNix32.characters) (h64 : c ∉ Base64.chars) (hpad : c ≠ 0x3d) :
    c ∉ h.digits f := by
  have hbase64 : c ∉ Base64.encode h.bytes := by
    intro hc
    rcases Base64.encode_mem hc with hc | hc
    · exact h64 hc
    · exact hpad hc
  cases f with
  | base16 => exact fun hc => h16 (Base16.encode_mem hc)
  | nix32 => exact fun hc => h32 (BaseNix32.encode_mem hc)
  | base64 => exact hbase64
  | sri => exact hbase64

theorem colon_not_mem_digits (h : Hash) (f : HashFormat) : 0x3a ∉ h.digits f :=
  not_mem_digits h f (by decide) (by decide) (by decide) (by decide)

theorem dash_not_mem_digits (h : Hash) (f : HashFormat) : 0x2d ∉ h.digits f :=
  not_mem_digits h f (by decide) (by decide) (by decide) (by decide)

theorem splitPrefixTo_eq_none {s : Bytes} {separator : UInt8} (h : separator ∉ s) :
    splitPrefixTo s separator = none := if_neg h

/-- Without a separator there is no algorithm to read. -/
theorem splitAlgo_unprefixed {s : Bytes} (hcolon : 0x3a ∉ s) (hdash : 0x2d ∉ s) :
    splitAlgo s = .ok (none, s, false) := by
  rw [splitAlgo, splitPrefixTo_eq_none hcolon]
  simp only [splitPrefixTo_eq_none hdash]

theorem splitAlgo_toText (h : Hash) (f : HashFormat) :
    splitAlgo (h.toText f true) = .ok (some h.algo, h.digits f, decide (f = .sri)) := by
  have hprint := parseHashAlgo_print h.algo
  by_cases hf : f = .sri
  · -- the only `-` is the separator, and there is no `:` at all
    have htext : h.toText f true = printHashAlgo h.algo ++ 0x2d :: h.digits f := by
      simp [toText, hf]
    have hdash : 0x2d ∉ printHashAlgo h.algo := by
      cases h.algo <;> decide
    have hcolon : 0x3a ∉ printHashAlgo h.algo ++ 0x2d :: h.digits f := by
      intro hc
      rcases List.mem_append.mp hc with hc | hc
      · exact colon_not_mem_print h.algo hc
      · rcases List.mem_cons.mp hc with hc | hc
        · exact absurd hc (by decide)
        · exact colon_not_mem_digits h f hc
    rw [splitAlgo, htext, splitPrefixTo_eq_none hcolon]
    simp only [splitPrefixTo_append hdash, hprint]
    rw [decide_eq_true hf]
    rfl
  · have htext : h.toText f true = printHashAlgo h.algo ++ 0x3a :: h.digits f := by
      simp [toText, hf]
    rw [splitAlgo, htext, splitPrefixTo_append (colon_not_mem_print h.algo)]
    simp only [hprint]
    rw [decide_eq_false hf]
    rfl

/-- What is left of `parseAnyHelper` once the algorithm is known. -/
theorem parseAnyHelper_of_split {rest : Bytes} {h : Hash} {f : HashFormat}
    {optParsedAlgo : Option HashAlgorithm}
    {resolveAlgo : Option HashAlgorithm → Except Error HashAlgorithm}
    (hsplit : splitAlgo rest = .ok (optParsedAlgo, h.digits f, decide (f = .sri)))
    (hresolve : resolveAlgo optParsedAlgo = .ok h.algo) :
    parseAnyHelper rest resolveAlgo = .ok (h, f) := by
  by_cases hf : f = .sri
  · subst hf
    simp only [parseAnyHelper, hsplit, ok_bind, hresolve, decide_true, if_true,
      parseLowLevel_digits, pure_eq_ok]
  · simp only [parseAnyHelper, hsplit, ok_bind, hresolve, decide_eq_false hf, Bool.false_eq_true,
      if_false, baseFromSize_digits h hf, parseLowLevel_digits, pure_eq_ok]

theorem parseAnyReturningFormat_toText (h : Hash) (f : HashFormat) {optAlgo : Option HashAlgorithm}
    (hopt : optAlgo = none ∨ optAlgo = some h.algo) :
    parseAnyReturningFormat (h.toText f true) optAlgo = .ok (h, f) := by
  apply parseAnyHelper_of_split (splitAlgo_toText h f)
  rcases hopt with rfl | rfl
  · rfl
  · exact if_neg (fun hne => hne rfl)

theorem parseAny_toText (h : Hash) {f : HashFormat} (hf : f ≠ .sri) :
    parseAny (h.toText f false) (some h.algo) = .ok h := by
  have htext : h.toText f false = h.digits f := by
    simp [toText, hf]
  have hsplit : splitAlgo (h.digits f) = .ok (none, h.digits f, decide (f = .sri)) := by
    rw [decide_eq_false hf]
    exact splitAlgo_unprefixed (colon_not_mem_digits h f) (dash_not_mem_digits h f)
  rw [parseAny, htext, parseAnyReturningFormat, parseAnyHelper_of_split hsplit rfl]
  rfl

-- ============================================================================
-- Section 2: Printing what was parsed
-- ============================================================================

/-- A decoder that fails leaves no bytes, and no hash is that short. -/
theorem parseLowLevel_eq_ok {rest : Bytes} {algo : HashAlgorithm}
    {pair : (Bytes → Except Error Bytes) × String} {h : Hash}
    (hlow : parseLowLevel rest algo pair = .ok h) :
    pair.1 rest = .ok h.bytes ∧ h.algo = algo := by
  unfold parseLowLevel at hlow
  cases hdec : pair.1 rest with
  | ok d =>
      rw [hdec] at hlow
      dsimp only at hlow
      split at hlow
      · cases hlow
        exact ⟨rfl, rfl⟩
      · cases hlow
  | error e =>
      rw [hdec] at hlow
      split at hlow
      · cases hlow
      · next hne =>
          dsimp only at hlow
          split at hlow
          · next hlen => exact absurd hlen.symm (Nat.ne_of_gt (regularHashSize_pos algo))
          · cases hlow

/-- Only the length of a string that is decoded as Nix32 says whether it is the
    text of the hash. -/
theorem toText_nix32_iff {s : Bytes} {algo : HashAlgorithm} {h : Hash}
    (hparse : parseExplicitFormatUnprefixed s algo .nix32 = .ok h) :
    h.toText .nix32 false = s ↔ s.length = BaseNix32.encodedLength (regularHashSize algo) := by
  obtain ⟨hdec, rfl⟩ := parseLowLevel_eq_ok hparse
  have htext : h.toText .nix32 false = BaseNix32.encode h.bytes := rfl
  rw [htext, ← h.size_eq]
  constructor
  · intro hs
    rw [← hs, BaseNix32.length_encode (bytes_ne h)]
  · intro hlen
    exact BaseNix32.encode_decode hdec hlen (bytes_ne h)

/-- The guess accepts no other length. -/
theorem length_of_baseFromSize {s : Bytes} {algo : HashAlgorithm}
    (h : baseFromSize s algo = .ok .nix32) :
    s.length = BaseNix32.encodedLength (regularHashSize algo) := by
  unfold baseFromSize at h
  dsimp only at h
  split at h
  · cases h
  · split at h
    · next hlen => exact hlen
    · split at h
      · cases h
      · cases h

/-- An unprefixed string that is taken for Nix32. -/
theorem nix32_of_parseAny {s : Bytes} {algo : HashAlgorithm} {h : Hash} (hcolon : 0x3a ∉ s)
    (hdash : 0x2d ∉ s) (hparse : parseAnyReturningFormat s (some algo) = .ok (h, .nix32)) :
    baseFromSize s algo = .ok .nix32 ∧
      parseExplicitFormatUnprefixed s algo .nix32 = .ok h := by
  simp only [parseAnyReturningFormat, parseAnyHelper, splitAlgo_unprefixed hcolon hdash, ok_bind,
    Bool.false_eq_true, if_false] at hparse
  obtain ⟨format, hsize, hparse⟩ := bind_eq_ok.mp hparse
  obtain ⟨h', hlow, hparse⟩ := bind_eq_ok.mp hparse
  cases hparse
  exact ⟨hsize, hlow⟩

theorem nix32_of_parseNonSRI {s : Bytes} {algo : HashAlgorithm} {h : Hash}
    (hsize : baseFromSize s algo = .ok .nix32) (hparse : parseNonSRIUnprefixed s algo = .ok h) :
    parseExplicitFormatUnprefixed s algo .nix32 = .ok h := by
  rw [parseNonSRIUnprefixed, hsize, ok_bind] at hparse
  exact hparse

-- ============================================================================
-- Section 3: The round trips
-- ============================================================================

/-- Every text of a hash is read back by the parsers, and a string that is taken
    for Nix32 by its length is the text of what it gives.  Where the format is
    said rather than guessed, the length decides. -/
theorem toText_roundTrip (h : Hash) :
    (∀ f optAlgo, optAlgo = none ∨ optAlgo = some h.algo →
      parseAnyReturningFormat (h.toText f true) optAlgo = .ok (h, f)) ∧
    (∀ f ≠ HashFormat.sri, parseAny (h.toText f false) (some h.algo) = .ok h) ∧
    parseSRI (h.toText .sri true) = .ok h ∧
    (∀ s algo, 0x3a ∉ s → 0x2d ∉ s →
      parseAnyReturningFormat s (some algo) = .ok (h, .nix32) → h.toText .nix32 false = s) ∧
    (∀ s algo, baseFromSize s algo = .ok .nix32 → parseNonSRIUnprefixed s algo = .ok h →
      h.toText .nix32 false = s) ∧
    (∀ s algo, parseExplicitFormatUnprefixed s algo .nix32 = .ok h →
      (h.toText .nix32 false = s ↔
        s.length = BaseNix32.encodedLength (regularHashSize algo))) := by
  refine ⟨fun f optAlgo hopt => parseAnyReturningFormat_toText h f hopt,
    fun f hf => parseAny_toText h hf, parseSRI_toText h, ?_, ?_,
    fun s algo hparse => toText_nix32_iff hparse⟩
  · intro s algo hcolon hdash hparse
    obtain ⟨hsize, hexplicit⟩ := nix32_of_parseAny hcolon hdash hparse
    exact (toText_nix32_iff hexplicit).mpr (length_of_baseFromSize hsize)
  · intro s algo hsize hparse
    exact (toText_nix32_iff (nix32_of_parseNonSRI hsize hparse)).mpr (length_of_baseFromSize hsize)

/-- One zero fewer than the text has is accepted as Nix32 all the same. -/
theorem parseExplicitFormatUnprefixed_short : ∃ h : Hash,
    parseExplicitFormatUnprefixed (List.replicate 51 0x30) .sha256 .nix32 = .ok h ∧
      h.toText .nix32 false ≠ List.replicate 51 0x30 :=
  ⟨⟨.sha256, List.replicate 32 0, Hash.size_zeros .sha256⟩, by decide +kernel⟩

end Hash

end NixStore
