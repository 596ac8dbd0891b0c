/-
  NixStore.Util.HashOrder

  The three ways in which two hashes are compared (`libutil/hash.cc`): by
  `operator==`, by `operator<=>`, and by their texts.

  A `Hash` in memory has an array of 64 bytes of which the first `hashSize`
  count.  `operator<=>` looks at the size, these bytes and the algorithm, and
  so does the text; `operator==` never looks at the algorithm.  Two digests of
  one size are therefore equal and yet ordered, and print differently, exactly
  if they have the same bytes under two algorithms (`agree_iff`).
-/

import NixStore.Util.HashText

namespace NixStore

-- ============================================================================
-- Section 1: The object and its comparisons
-- ============================================================================

/-- `Hash::maxHashSize`. -/
def maxHashSize : Nat := 64

/-- The value of an algorithm in its `enum`. -/
def HashAlgorithm.value : HashAlgorithm → Nat
  | .md5 => 42
  | .sha1 => 43
  | .sha256 => 44
  | .sha512 => 45
  | .blake3 => 46

theorem HashAlgorithm.value_inj {a b : HashAlgorithm} (h : a.value = b.value) : a = b := by
  cases a <;> cases b <;> first | rfl | cases h

/-- A `Hash` as it lies in memory.  `compressHash` makes some whose size is not
    the regular one. -/
structure HashObject where
  hashSize : Nat
  hash : Bytes
  algo : HashAlgorithm
  length_hash : hash.length = maxHashSize
  size_pos : 0 < hashSize
  size_le : hashSize ≤ maxHashSize

namespace HashObject

/-- The bytes that count. -/
def bytes (h : HashObject) : Bytes := h.hash.take h.hashSize

/-- The loop of `Hash::operator==` with some rounds to go. -/
def equalBytes (h₁ h₂ : HashObject) (i : Nat) : Nat → Bool
  | 0 => true
  | rounds + 1 =>
      if h₁.hash.getD i 0 ≠ h₂.hash.getD i 0 then false else equalBytes h₁ h₂ (i + 1) rounds

/-- `Hash::operator==`. -/
def equals (h₁ h₂ : HashObject) : Bool :=
  if h₁.hashSize ≠ h₂.hashSize then false else equalBytes h₁ h₂ 0 h₁.hashSize

/-- The loop of `Hash::operator<=>` with some rounds to go, and what follows
    it. -/
def orderBytes (h₁ h₂ : HashObject) (i : Nat) : Nat → Ordering
  | 0 => compare h₁.algo.value h₂.algo.value
  | rounds + 1 =>
      match compare (h₁.hash.getD i 0) (h₂.hash.getD i 0) with
      | .eq => orderBytes h₁ h₂ (i + 1) rounds
      | cmp => cmp

/-- `Hash::operator<=>`. -/
def order (h₁ h₂ : HashObject) : Ordering :=
  match compare h₁.hashSize h₂.hashSize with
  | .eq => orderBytes h₁ h₂ 0 h₁.hashSize
  | cmp => cmp

/-- The part of `Hash::to_string` behind the algorithm. -/
def digits (h : HashObject) : HashFormat → Bytes
  | .base16 => Base16.encode h.bytes
  | .nix32 => BaseNix32.encode h.bytes
  | .base64 => Base64.encode h.bytes
  | .sri => Base64.encode h.bytes

/-- `Hash::to_string`. -/
def toText (h : HashObject) (hashFormat : HashFormat) (includeAlgo : Bool) : Bytes :=
  (if hashFormat = .sri ∨ includeAlgo then
    printHashAlgo h.algo ++ [if hashFormat = .sri then 0x2d else 0x3a]
  else []) ++ h.digits hashFormat

/-- An object with the given bytes in front and zeros behind them. -/
def ofBytes (algo : HashAlgorithm) (bytes : Bytes) (hpos : 0 < bytes.length)
    (hle : bytes.length ≤ maxHashSize) : HashObject where
  hashSize := bytes.length
  hash := bytes ++ List.replicate (maxHashSize - bytes.length) 0
  algo := algo
  length_hash := by
    rw [List.length_append, List.length_replicate]
    omega
  size_pos := hpos
  size_le := hle

end HashObject

theorem regularHashSize_le (algo : HashAlgorithm) : regularHashSize algo ≤ maxHashSize := by
  cases algo <;> decide

namespace Hash

/-- A hash of the regular size in memory. -/
def object (h : Hash) : HashObject :=
  .ofBytes h.algo h.bytes (h.size_eq ▸ regularHashSize_pos h.algo)
    (h.size_eq ▸ regularHashSize_le h.algo)

/-- `Hash::operator==` for hashes of the regular size. -/
def equals (h₁ h₂ : Hash) : Bool := h₁.object.equals h₂.object

end Hash

-- ============================================================================
-- Section 2: What the comparisons look at
-- ============================================================================

namespace HashObject

theorem length_bytes (h : HashObject) : h.bytes.length = h.hashSize := by
  rw [bytes, List.length_take, h.length_hash]
  exact Nat.min_eq_left h.size_le

@[simp] theorem bytes_ofBytes (algo : HashAlgorithm) (bytes : Bytes) (hpos : 0 < bytes.length)
    (hle : bytes.length ≤ maxHashSize) : (ofBytes algo bytes hpos hle).bytes = bytes :=
  List.take_left

/-- The bytes of a window, the first one apart. -/
theorem window_succ (h : HashObject) {i rounds : Nat} (hi : i < h.hash.length) :
    (h.hash.drop i).take (rounds + 1) = h.hash.getD i 0 :: (h.hash.drop (i + 1)).take rounds := by
  rw [List.drop_eq_getElem_cons hi, List.take_succ_cons, List.getD_eq_getElem _ _ hi]

theorem equalBytes_iff (h₁ h₂ : HashObject) {i rounds : Nat} (hi : i + rounds ≤ maxHashSize) :
    equalBytes h₁ h₂ i rounds = true ↔
      (h₁.hash.drop i).take rounds = (h₂.hash.drop i).take rounds := by
  induction rounds generalizing i with
  | zero => simp [equalBytes]
  | succ rounds ih =>
      have hlen₁ := h₁.length_hash
      have hlen₂ := h₂.length_hash
      rw [equalBytes, window_succ h₁ (by omega), window_succ h₂ (by omega), List.cons_eq_cons,
        ← ih (by omega)]
      by_cases heq : h₁.hash.getD i 0 = h₂.hash.getD i 0
      · rw [if_neg (not_not.mpr heq)]
        exact ⟨fun h => ⟨heq, h⟩, fun h => h.2⟩
      · rw [if_pos heq]
        exact ⟨fun h => (by cases h), fun h => absurd h.1 heq⟩

/-- `operator==` compares the bytes that count. -/
theorem equals_iff (h₁ h₂ : HashObject) : h₁.equals h₂ = true ↔ h₁.bytes = h₂.bytes := by
  unfold equals
  by_cases hsize : h₁.hashSize = h₂.hashSize
  · rw [if_neg (not_not.mpr hsize),
      equalBytes_iff h₁ h₂ (by rw [Nat.zero_add]; exact h₁.size_le), List.drop_zero,
      List.drop_zero, bytes, bytes, hsize]
  · rw [if_pos hsize]
    refine ⟨fun h => (by cases h), fun h => absurd ?_ hsize⟩
    rw [← h₁.length_bytes, ← h₂.length_bytes, h]

theorem orderBytes_eq (h₁ h₂ : HashObject) {i rounds : Nat} (hi : i + rounds ≤ maxHashSize) :
    orderBytes h₁ h₂ i rounds =
      (List.compareLex compare ((h₁.hash.drop i).take rounds) ((h₂.hash.drop i).take rounds)).then
        (compare h₁.algo.value h₂.algo.value) := by
  induction rounds generalizing i with
  | zero => rfl
  | succ rounds ih =>
      have hlen₁ := h₁.length_hash
      have hlen₂ := h₂.length_hash
      rw [orderBytes, window_succ h₁ (by omega), window_succ h₂ (by omega),
        List.compareLex_cons_cons, ih (by omega)]
      cases compare (h₁.hash.getD i 0) (h₂.hash.getD i 0) <;> rfl

/-- The order of the sizes, then of the bytes, then of the algorithms. -/
def lexOrder : HashObject → HashObject → Ordering :=
  compareLex (compareOn hashSize) (compareLex (compareOn bytes) (compareOn fun h => h.algo.value))

theorem order_eq_lexOrder (h₁ h₂ : HashObject) : h₁.order h₂ = lexOrder h₁ h₂ := by
  unfold order lexOrder compareLex compareOn
  cases hsize : compare h₁.hashSize h₂.hashSize with
  | lt => rfl
  | gt => rfl
  | eq =>
      have heq : h₁.hashSize = h₂.hashSize := Nat.compare_eq_eq.mp hsize
      dsimp only
      rw [orderBytes_eq h₁ h₂ (by rw [Nat.zero_add]; exact h₁.size_le), List.drop_zero,
        List.drop_zero, bytes, bytes, heq]
      rfl

-- ============================================================================
-- Section 3: The order is total
-- ============================================================================

instance : Std.TransCmp lexOrder := inferInstanceAs (Std.TransCmp (compareLex _ (compareLex _ _)))

/-- Two objects are equivalent if the same bytes count under one algorithm. -/
theorem order_eq_iff (h₁ h₂ : HashObject) :
    h₁.order h₂ = .eq ↔ h₁.bytes = h₂.bytes ∧ h₁.algo = h₂.algo := by
  rw [order_eq_lexOrder, lexOrder, compareLex_eq_eq, compareLex_eq_eq]
  constructor
  · rintro ⟨-, hbytes, halgo⟩
    exact ⟨Std.LawfulEqCmp.eq_of_compare hbytes,
      HashAlgorithm.value_inj (Nat.compare_eq_eq.mp halgo)⟩
  · rintro ⟨hbytes, halgo⟩
    refine ⟨Nat.compare_eq_eq.mpr ?_, ?_, Nat.compare_eq_eq.mpr (congrArg _ halgo)⟩
    · rw [← h₁.length_bytes, ← h₂.length_bytes, hbytes]
    · rw [compareOn, hbytes]
      exact Std.ReflCmp.compare_self

/-- The order is total and transitive. -/
instance transCmp_order : Std.TransCmp order where
  eq_swap := by
    intro h₁ h₂
    rw [order_eq_lexOrder, order_eq_lexOrder]
    exact Std.OrientedCmp.eq_swap
  isLE_trans := by
    intro h₁ h₂ h₃ h h'
    rw [order_eq_lexOrder] at h h' ⊢
    exact Std.TransCmp.isLE_trans h h'

-- ============================================================================
-- Section 4: The texts
-- ============================================================================

theorem digits_inj {h₁ h₂ : HashObject} {f : HashFormat} (h : h₁.digits f = h₂.digits f) :
    h₁.bytes = h₂.bytes := by
  have hbase64 : ∀ b b' : Bytes, Base64.encode b = Base64.encode b' → b = b' := by
    intro b b' hb
    have hdec := congrArg Base64.decode hb
    rw [Base64.decode_encode, Base64.decode_encode] at hdec
    exact Except.ok.inj hdec
  cases f with
  | base16 =>
      have hdec := congrArg Base16.decode h
      rw [digits, digits, Base16.decode_encode, Base16.decode_encode] at hdec
      exact Except.ok.inj hdec
  | nix32 =>
      have hdec := congrArg BaseNix32.decode h
      rw [digits, digits, BaseNix32.decode_encode, BaseNix32.decode_encode] at hdec
      exact Except.ok.inj hdec
  | base64 => exact hbase64 _ _ h
  | sri => exact hbase64 _ _ h

theorem toText_eq (h : HashObject) (f : HashFormat) : h.toText f true =
    printHashAlgo h.algo ++ (if f = .sri then 0x2d else 0x3a) :: h.digits f := by
  simp [toText]

/-- A text with the algorithm says what the hash is, in every format. -/
theorem toText_inj_iff (h₁ h₂ : HashObject) (f : HashFormat) :
    h₁.toText f true = h₂.toText f true ↔ h₁.bytes = h₂.bytes ∧ h₁.algo = h₂.algo := by
  have hsep : ∀ algo, (if f = .sri then (0x2d : UInt8) else 0x3a) ∉ printHashAlgo algo := by
    intro algo
    by_cases hf : f = .sri
    · rw [if_pos hf]
      cases algo <;> decide
    · rw [if_neg hf]
      exact Hash.colon_not_mem_print algo
  constructor
  · intro h
    have hsplit := congrArg (splitPrefixTo · (if f = .sri then 0x2d else 0x3a)) h
    simp only [toText_eq, splitPrefixTo_append (hsep _), Option.some.injEq, Prod.mk.injEq] at hsplit
    obtain ⟨hprint, hdigits⟩ := hsplit
    have hparse := congrArg parseHashAlgo hprint
    rw [Hash.parseHashAlgo_print, Hash.parseHashAlgo_print] at hparse
    exact ⟨digits_inj hdigits, Except.ok.inj hparse⟩
  · rintro ⟨hbytes, halgo⟩
    have hdigits : h₁.digits f = h₂.digits f := by
      cases f <;> rw [digits, digits, hbytes]
    rw [toText_eq, toText_eq, hdigits, halgo]

-- ============================================================================
-- Section 5: Where they agree
-- ============================================================================

/-- For two hashes, all three comparisons say the same. -/
structure Agree (h₁ h₂ : HashObject) : Prop where
  equals_order : h₁.equals h₂ = true ↔ h₁.order h₂ = .eq
  order_text : ∀ f, h₁.order h₂ = .eq ↔ h₁.toText f true = h₂.toText f true

/-- The same digest under two algorithms. -/
def Relabelled (h₁ h₂ : HashObject) : Prop := h₁.bytes = h₂.bytes ∧ h₁.algo ≠ h₂.algo

theorem agree_iff (h₁ h₂ : HashObject) : Agree h₁ h₂ ↔ ¬ Relabelled h₁ h₂ := by
  constructor
  · rintro ⟨hequals, -⟩ ⟨hbytes, halgo⟩
    exact halgo ((order_eq_iff h₁ h₂).mp (hequals.mp ((equals_iff h₁ h₂).mpr hbytes))).2
  · intro hlabel
    refine ⟨?_, fun f => ?_⟩
    · rw [equals_iff, order_eq_iff]
      exact ⟨fun hbytes => ⟨hbytes, not_not.mp fun halgo => hlabel ⟨hbytes, halgo⟩⟩, And.left⟩
    · rw [order_eq_iff, toText_inj_iff]

end HashObject

-- ============================================================================
-- Section 6: Hashes of the regular size
-- ============================================================================

namespace Hash

@[simp] theorem bytes_object (h : Hash) : h.object.bytes = h.bytes :=
  HashObject.bytes_ofBytes _ _ _ _

theorem toText_object (h : Hash) (f : HashFormat) (includeAlgo : Bool) :
    h.object.toText f includeAlgo = h.toText f includeAlgo := by
  have hdigits : h.object.digits f = h.digits f := by
    cases f <;> rw [HashObject.digits, digits, bytes_object]
  rw [HashObject.toText, toText, hdigits]
  rfl

theorem equals_iff (h₁ h₂ : Hash) : h₁.equals h₂ = true ↔ h₁.bytes = h₂.bytes := by
  rw [equals, HashObject.equals_iff, bytes_object, bytes_object]

@[simp] theorem equals_self (h : Hash) : h.equals h = true := (equals_iff h h).mpr rfl

/-- Under one algorithm `operator==` is equality. -/
theorem equals_iff_eq {h₁ h₂ : Hash} (halgo : h₁.algo = h₂.algo) :
    h₁.equals h₂ = true ↔ h₁ = h₂ := by
  rw [equals_iff]
  obtain ⟨algo, bytes, hsize⟩ := h₁
  obtain ⟨algo', bytes', hsize'⟩ := h₂
  cases halgo
  constructor
  · rintro rfl
    rfl
  · exact congrArg Hash.bytes

/-- Among the regular sizes only two are the same. -/
theorem relabelled_algos {h₁ h₂ : Hash} (h : h₁.object.Relabelled h₂.object) :
    (h₁.algo = .sha256 ∧ h₂.algo = .blake3) ∨ (h₁.algo = .blake3 ∧ h₂.algo = .sha256) := by
  obtain ⟨hbytes, halgo⟩ := h
  rw [bytes_object, bytes_object] at hbytes
  have hsize : regularHashSize h₁.algo = regularHashSize h₂.algo := by
    rw [← h₁.size_eq, ← h₂.size_eq, hbytes]
  have hne : h₁.algo ≠ h₂.algo := halgo
  revert hsize hne
  cases h₁.algo <;> cases h₂.algo <;> decide

end Hash
end NixStore
