/-
  NixStore.Util.BaseNix32

  The base-32 variant of `libutil/base-nix-32.{hh,cc}`, and the hash part of a
  store path, which is written in it.

  The digits of a byte string are those of the little-endian number it
  denotes, the most significant first (`digitAt_eq`).  Decoding rebuilds the
  bytes digit by digit from the low end; after `n` digits it holds the number
  modulo `32 ^ n` (`DecodedTo`).
-/

import NixStore.Util.Serialise
import Mathlib.Tactic.IntervalCases

namespace NixStore

open Wire

namespace BaseNix32

/-- `BaseNix32::characters` (`e`, `o`, `u` and `t` are left out). -/
def characters : Bytes := ascii "0123456789abcdfghijklmnpqrsvwxyz"

/-- `BaseNix32::lookupReverse`. -/
def lookupReverse (c : UInt8) : Option Nat :=
  if c ∈ characters then some (characters.idxOf c) else none

/-- `BaseNix32::encodedLength`. -/
def encodedLength (originalLength : Nat) : Nat := (originalLength * 8 - 1) / 5 + 1

/-- The value `c & 0x1f` in the loop of `BaseNix32::encode`.  The two operands
    of the `|` have no bit in common, so it is a sum here. -/
def digitAt (bs : Bytes) (n : Nat) : Nat :=
  let i := n * 5 / 8
  let j := n * 5 % 8
  ((bs.getD i 0).toNat / 2 ^ j +
    (if i ≥ bs.length - 1 then 0 else (bs.getD (i + 1) 0).toNat * 2 ^ (8 - j) % 256)) % 32

/-- `BaseNix32::encode`. -/
def encode (bs : Bytes) : Bytes :=
  if bs.length = 0 then []
  else (List.range (encodedLength bs.length)).reverse.map fun n => characters.getD (digitAt bs n) 0

/-- `res.resize(n)`. -/
def resize (n : Nat) (res : Bytes) : Bytes :=
  res.take n ++ List.replicate (n - res.length) 0

/-- What the loop of `BaseNix32::decode` does with the digit `n` places from
    the end.  Each `|=` sets bits that are still zero, so it adds. -/
def putDigit (n digit : Nat) (res : Bytes) : Bytes :=
  let i := n * 5 / 8
  let j := n * 5 % 8
  let res := (resize (i + 1) res).modify i fun b => UInt8.ofNat (b.toNat + digit * 2 ^ j % 256)
  if digit / 2 ^ (8 - j) ≠ 0 then
    (resize (i + 2) res).modify (i + 1) fun b => UInt8.ofNat (b.toNat + digit / 2 ^ (8 - j))
  else res

/-- The loop of `BaseNix32::decode`, over the characters from the last to the
    first. -/
def decodeLoop : Nat → Bytes → Bytes → Except Error Bytes
  | _, [], res => .ok res
  | n, c :: s, res =>
      match lookupReverse c with
      | none => .error (.format
          s!"invalid character in Nix32 (Nix's Base32 variation) string: '{showBytes [c]}'")
      | some digit => decodeLoop (n + 1) s (putDigit n digit res)

/-- `BaseNix32::decode`. -/
def decode (s : Bytes) : Except Error Bytes := decodeLoop 0 s.reverse []

/-! ## Digits of a number -/

theorem pow_thirtyTwo (n : Nat) : 32 ^ n = 256 ^ (n * 5 / 8) * 2 ^ (n * 5 % 8) := by
  rw [show (32 : Nat) = 2 ^ 5 from rfl, show (256 : Nat) = 2 ^ 8 from rfl, ← Nat.pow_mul,
    ← Nat.pow_mul, ← Nat.pow_add]
  congr 1
  omega

theorem digitAt_eq (bs : Bytes) (n : Nat) : digitAt bs n = leNat bs / 32 ^ n % 32 := by
  obtain ⟨i, hi⟩ : ∃ i, i = n * 5 / 8 := ⟨_, rfl⟩
  obtain ⟨j, hj⟩ : ∃ j, j = n * 5 % 8 := ⟨_, rfl⟩
  have hlo := leNat_getElem bs i
  have hhi := leNat_getElem bs (i + 1)
  -- past the last byte the number has no bits, so the guard changes nothing
  have hguard : (if i ≥ bs.length - 1 then 0 else (bs.getD (i + 1) 0).toNat * 2 ^ (8 - j) % 256)
      = (bs.getD (i + 1) 0).toNat * 2 ^ (8 - j) % 256 := by
    by_cases h : i ≥ bs.length - 1
    · rw [if_pos h, List.getD_eq_default _ _ (by omega)]
      simp
    · rw [if_neg h]
  rw [Nat.pow_succ, ← Nat.div_div_eq_div_mul] at hhi
  unfold digitAt
  simp only [← hi, ← hj]
  rw [hguard, pow_thirtyTwo, ← Nat.div_div_eq_div_mul, ← hi, ← hj, ← hlo, ← hhi]
  generalize leNat bs / 256 ^ i = m
  have hlt : j < 8 := by omega
  interval_cases j <;> omega

/-! ## Decoding what was encoded -/

theorem length_resize (n : Nat) (res : Bytes) : (resize n res).length = n := by
  simp only [resize, List.length_append, List.length_take, List.length_replicate]
  omega

/-- Growing appends zeros, which add nothing. -/
theorem leNat_resize {n : Nat} {res : Bytes} (h : res.length ≤ n) :
    leNat (resize n res) = leNat res := by
  rw [resize, List.take_of_length_le h, leNat_append, leNat_zeros, Nat.mul_zero, Nat.add_zero]

/-- A byte above all bits of the number is zero. -/
theorem toNat_getD_eq_zero {bs : Bytes} {i : Nat} (h : leNat bs < 256 ^ i) :
    (bs.getD i 0).toNat = 0 := by
  rw [← leNat_getElem, Nat.div_eq_of_lt h]

/-- Putting the digit `n` places from the end adds it at its place, in as many
    bytes as its bits take. -/
theorem putDigit_spec {n digit : Nat} {res : Bytes} (hdigit : digit < 32)
    (hlen : res.length ≤ n * 5 / 8 + 1) (hval : leNat res < 32 ^ n) :
    leNat (putDigit n digit res) = leNat res + digit * 32 ^ n ∧
      ((putDigit n digit res).length = n * 5 / 8 + 1 ∨
        (putDigit n digit res).length = n * 5 / 8 + 2 ∧ 4 ≤ n * 5 % 8 ∧
          256 ^ (n * 5 / 8 + 1) ≤ leNat (putDigit n digit res)) := by
  obtain ⟨i, hi⟩ : ∃ i, i = n * 5 / 8 := ⟨_, rfl⟩
  obtain ⟨j, hj⟩ : ∃ j, j = n * 5 % 8 := ⟨_, rfl⟩
  have hj8 : j < 8 := by omega
  rw [← hi] at hlen
  rw [pow_thirtyTwo, ← hi, ← hj] at hval
  -- the part of the digit that stays in byte `i`, and the part that spills
  obtain ⟨low, hlow⟩ : ∃ x, x = digit * 2 ^ j % 256 := ⟨_, rfl⟩
  obtain ⟨high, hhigh⟩ : ∃ x, x = digit / 2 ^ (8 - j) := ⟨_, rfl⟩
  have hsplit : low + high * 256 = digit * 2 ^ j := by
    subst hlow hhigh
    interval_cases j <;> omega
  have htop : ((resize (i + 1) res).getD i 0).toNat < 2 ^ j := by
    rw [← leNat_getElem, leNat_resize hlen]
    have hdiv : leNat res / 256 ^ i < 2 ^ j := by
      rw [Nat.mul_comm] at hval
      exact Nat.div_lt_of_lt_mul (by rw [Nat.mul_comm]; exact hval)
    exact lt_of_le_of_lt (Nat.mod_le _ _) hdiv
  have hfit : ((resize (i + 1) res).getD i 0).toNat + low < 256 := by
    subst hlow
    interval_cases j <;> omega
  obtain ⟨res₁, hres₁⟩ : ∃ r, r = (resize (i + 1) res).modify i
      (fun b => UInt8.ofNat (b.toNat + low)) := ⟨_, rfl⟩
  have hlen₁ : res₁.length = i + 1 := by rw [hres₁, List.length_modify, length_resize]
  have hval₁ : leNat res₁ = leNat res + low * 256 ^ i := by
    rw [hres₁, leNat_modify (by rw [length_resize]; omega) hfit, leNat_resize hlen]
  have hput : putDigit n digit res = if high ≠ 0 then (resize (i + 2) res₁).modify (i + 1)
      (fun b => UInt8.ofNat (b.toNat + high)) else res₁ := by
    rw [putDigit, ← hi, ← hj, ← hlow, ← hhigh, ← hres₁]
  have htotal : low * 256 ^ i + high * 256 ^ (i + 1) = digit * (256 ^ i * 2 ^ j) := by
    calc low * 256 ^ i + high * 256 ^ (i + 1) = (low + high * 256) * 256 ^ i := by ring
      _ = digit * (256 ^ i * 2 ^ j) := by rw [hsplit]; ring
  rw [hput, pow_thirtyTwo, ← hi, ← hj]
  by_cases hzero : high = 0
  · rw [if_neg (by simpa using hzero)]
    refine ⟨?_, Or.inl hlen₁⟩
    rw [hzero, Nat.zero_mul, Nat.add_zero] at htotal
    rw [hval₁, htotal]
  · rw [if_pos hzero]
    have hzero₁ : ((resize (i + 2) res₁).getD (i + 1) 0).toNat = 0 := by
      apply toNat_getD_eq_zero
      rw [leNat_resize (by omega), ← hlen₁]
      exact leNat_lt res₁
    have hsmall : high < 256 := by
      rw [hhigh]
      exact lt_of_le_of_lt (Nat.div_le_self _ _) (by omega)
    have hval₂ : leNat ((resize (i + 2) res₁).modify (i + 1) fun b => UInt8.ofNat (b.toNat + high))
        = leNat res₁ + high * 256 ^ (i + 1) := by
      rw [leNat_modify (by rw [length_resize]; omega) (by rw [hzero₁]; omega),
        leNat_resize (by omega)]
    refine ⟨?_, Or.inr ⟨by rw [List.length_modify, length_resize], ?_, ?_⟩⟩
    · rw [hval₂, hval₁, Nat.add_assoc, htotal]
    · by_contra hsmallj
      apply hzero
      rw [hhigh]
      have hle : j ≤ 3 := by omega
      interval_cases j <;> omega
    · rw [hval₂]
      have hone : 1 * 256 ^ (i + 1) ≤ high * 256 ^ (i + 1) :=
        Nat.mul_le_mul_right _ (Nat.one_le_iff_ne_zero.mpr hzero)
      omega

theorem lookupReverse_getD : ∀ n < 32, lookupReverse (characters.getD n 0) = some n := by
  decide +kernel

/-- The state of the decoding loop after the `n` lowest digits of `m`. -/
structure DecodedTo (m n : Nat) (res : Bytes) : Prop where
  value : leNat res = m % 32 ^ n
  length_le : res.length ≤ n * 5 / 8 + 1
  exact_length : 0 < n → res.length = (n - 1) * 5 / 8 + 1 ∨
    res.length = (n - 1) * 5 / 8 + 2 ∧ 256 ^ ((n - 1) * 5 / 8 + 1) ≤ leNat res

theorem DecodedTo.step {m n : Nat} {res : Bytes} (h : DecodedTo m n res) :
    DecodedTo m (n + 1) (putDigit n (m / 32 ^ n % 32) res) := by
  have hpos : 0 < 32 ^ n := Nat.pow_pos (by decide)
  have hval : leNat res < 32 ^ n := by
    rw [h.value]
    exact Nat.mod_lt _ hpos
  obtain ⟨hsum, hlen⟩ := putDigit_spec (Nat.mod_lt (m / 32 ^ n) (by decide)) h.length_le hval
  refine ⟨?_, ?_, ?_⟩
  · rw [hsum, h.value, Nat.pow_succ, Nat.mod_mul, Nat.mul_comm (32 ^ n)]
  · rcases hlen with hlen | ⟨hlen, hj, -⟩
    · omega
    · omega
  · intro _
    rw [Nat.add_sub_cancel]
    rcases hlen with hlen | ⟨hlen, -, hbig⟩
    · exact Or.inl hlen
    · exact Or.inr ⟨hlen, hbig⟩

theorem decodeLoop_digits {m : Nat} (k : Nat) {n : Nat} {res : Bytes} (h : DecodedTo m n res) :
    ∃ res', DecodedTo m (n + k) res' ∧
      decodeLoop n ((List.range' n k).map fun i => characters.getD (m / 32 ^ i % 32) 0) res
        = .ok res' := by
  induction k generalizing n res with
  | zero => exact ⟨res, h, rfl⟩
  | succ k ih =>
      obtain ⟨res', hres', hloop⟩ := ih h.step
      refine ⟨res', by rw [Nat.add_right_comm] at hres'; exact hres', ?_⟩
      have hlook := lookupReverse_getD (m / 32 ^ n % 32) (Nat.mod_lt _ (by decide))
      rw [List.range'_succ, List.map_cons, decodeLoop, hlook]
      exact hloop

theorem length_encode {bs : Bytes} (h : bs.length ≠ 0) :
    (encode bs).length = encodedLength bs.length := by
  rw [encode, if_neg h, List.length_map, List.length_reverse, List.length_range]

theorem decode_encode (bs : Bytes) : decode (encode bs) = .ok bs := by
  by_cases h0 : bs.length = 0
  · rw [List.length_eq_zero_iff.mp h0]
    rfl
  · have hstart : DecodedTo (leNat bs) 0 [] := by
      refine ⟨?_, Nat.zero_le _, fun h => absurd h (Nat.lt_irrefl 0)⟩
      rw [Nat.pow_zero, Nat.mod_one]
      rfl
    obtain ⟨res, hres, hloop⟩ := decodeLoop_digits (encodedLength bs.length) hstart
    rw [Nat.zero_add] at hres
    have hdigits : (encode bs).reverse = (List.range' 0 (encodedLength bs.length)).map
        fun i => characters.getD (leNat bs / 32 ^ i % 32) 0 := by
      rw [encode, if_neg h0, List.map_reverse, List.reverse_reverse, List.range_eq_range']
      apply List.map_congr_left
      intro n _
      rw [digitAt_eq]
    rw [decode, hdigits, hloop]
    congr 1
    -- the last digit lies in the last byte, and the number has no bits above it
    have hlast : (encodedLength bs.length - 1) * 5 / 8 + 1 = bs.length := by
      unfold encodedLength
      omega
    have hlt := leNat_lt bs
    have hbound : leNat bs < 32 ^ encodedLength bs.length := by
      refine lt_of_lt_of_le hlt ?_
      rw [show (32 : Nat) = 2 ^ 5 from rfl, show (256 : Nat) = 2 ^ 8 from rfl, ← Nat.pow_mul,
        ← Nat.pow_mul]
      apply Nat.pow_le_pow_right (by decide)
      unfold encodedLength
      omega
    have hvalue : leNat res = leNat bs := by rw [hres.value, Nat.mod_eq_of_lt hbound]
    have hexact := hres.exact_length (by unfold encodedLength; omega)
    rw [hlast] at hexact
    rcases hexact with hlen | ⟨-, hbig⟩
    · exact leNat_inj hlen hvalue
    · rw [hvalue] at hbig
      omega

/-! ## Encoding what was decoded -/

theorem lookupReverse_eq_some {c : UInt8} {digit : Nat} (h : lookupReverse c = some digit) :
    digit < 32 ∧ characters.getD digit 0 = c := by
  unfold lookupReverse at h
  split at h
  · next hmem =>
      cases h
      have hlt : characters.idxOf c < characters.length := List.idxOf_lt_length_of_mem hmem
      refine ⟨hlt, ?_⟩
      rw [List.getD_eq_getElem _ _ hlt, List.getElem_idxOf]
  · cases h

/-- What is decoded consists of digits. -/
theorem digits_of_decodeLoop {s : Bytes} {n : Nat} {res res' : Bytes}
    (h : decodeLoop n s res = .ok res') : ∃ m < 32 ^ s.length,
      s = (List.range' 0 s.length).map fun i => characters.getD (m / 32 ^ i % 32) 0 := by
  induction s generalizing n res with
  | nil => exact ⟨0, by decide, rfl⟩
  | cons c s ih =>
      rw [decodeLoop] at h
      cases hlook : lookupReverse c with
      | none =>
          rw [hlook] at h
          cases h
      | some digit =>
          rw [hlook] at h
          obtain ⟨m, hm, hs⟩ := ih h
          obtain ⟨hdigit, hchar⟩ := lookupReverse_eq_some hlook
          refine ⟨digit + 32 * m, ?_, ?_⟩
          · rw [List.length_cons, Nat.pow_succ]
            omega
          · have hfirst : (digit + 32 * m) / 32 ^ 0 % 32 = digit := by
              rw [Nat.pow_zero, Nat.div_one]
              omega
            have hnext : ∀ i, (digit + 32 * m) / 32 ^ (i + 1) % 32 = m / 32 ^ i % 32 := by
              intro i
              rw [Nat.pow_succ', ← Nat.div_div_eq_div_mul]
              congr 2
              omega
            rw [List.length_cons, List.range'_succ, List.map_cons, hfirst, hchar,
              List.range'_eq_map_range, List.map_map]
            congr 1
            conv_lhs => rw [hs]
            rw [List.range'_eq_map_range, List.map_map]
            refine List.map_congr_left fun i _ => ?_
            simp only [Function.comp_apply, Nat.zero_add, Nat.add_comm 1 i, hnext]

/-- A string of the right length is the encoding of what it decodes to. -/
theorem encode_decode {s d : Bytes} (h : decode s = .ok d)
    (hlen : s.length = encodedLength d.length) (hne : d.length ≠ 0) : encode d = s := by
  obtain ⟨m, hm, hs⟩ := digits_of_decodeLoop h
  rw [List.length_reverse] at hm hs
  have hstart : DecodedTo m 0 [] := by
    refine ⟨?_, Nat.zero_le _, fun h => absurd h (Nat.lt_irrefl 0)⟩
    rw [Nat.pow_zero, Nat.mod_one]
    rfl
  obtain ⟨res, hres, hloop⟩ := decodeLoop_digits s.length hstart
  rw [← hs] at hloop
  cases hloop.symm.trans h
  have hvalue : leNat d = m := by
    rw [hres.value, Nat.zero_add, Nat.mod_eq_of_lt hm]
  rw [← List.reverse_inj, hs, encode, if_neg hne, ← hlen, List.map_reverse, List.reverse_reverse,
    List.range_eq_range']
  refine List.map_congr_left fun n _ => ?_
  rw [digitAt_eq, hvalue]

theorem encode_mem {bs : Bytes} {c : UInt8} (h : c ∈ encode bs) : c ∈ characters := by
  unfold encode at h
  split at h
  · exact absurd h List.not_mem_nil
  · obtain ⟨n, -, rfl⟩ := List.mem_map.mp h
    have hlen : digitAt bs n < characters.length := by
      rw [digitAt_eq]
      exact Nat.mod_lt _ (by decide)
    rw [List.getD_eq_getElem _ _ hlen]
    exact List.getElem_mem hlen

end BaseNix32

/-- `StorePath::HashLen`. -/
def hashLen : Nat := 32

/-- The hash part of a store path. -/
structure HashPart where
  chars : Bytes
  length_eq : chars.length = hashLen
  nix32 : ∀ c ∈ chars, c ∈ BaseNix32.characters
deriving DecidableEq

namespace HashPart

theorem length_pos (h : HashPart) : 0 < h.chars.length := by
  rw [h.length_eq]
  decide

/-- A byte outside the alphabet is in no hash part. -/
theorem not_mem (h : HashPart) {b : UInt8} (hb : b ∉ BaseNix32.characters) : b ∉ h.chars :=
  fun hmem => hb (h.nix32 b hmem)

end HashPart

end NixStore
