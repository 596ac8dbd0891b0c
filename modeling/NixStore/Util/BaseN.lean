/-
  NixStore.Util.BaseN

  Base16 and Base64 (`libutil/base-n.cc`), and that decoding undoes encoding.
-/

import NixStore.Util.Serialise
import Mathlib.Data.List.GetD

namespace NixStore

/-! ## Base16 -/

namespace Base16

/-- `base16Chars`. -/
def chars : Bytes := ascii "0123456789abcdef"

/-- `base16::encodedLength`. -/
def encodedLength (origSize : Nat) : Nat := origSize * 2

/-- The digit `base16Chars[n]`. -/
def digit (n : Nat) : UInt8 := chars.getD n 0

/-- `base16::encode`. -/
def encode (b : Bytes) : Bytes :=
  b.flatMap fun c => [digit (c.toNat / 16), digit (c.toNat % 16)]

/-- The lambda `parseHexDigit`. -/
def parseHexDigit (c : UInt8) : Except Error Nat :=
  if 0x30 ≤ c ∧ c ≤ 0x39 then .ok (c.toNat - 0x30)
  else if 0x41 ≤ c ∧ c ≤ 0x46 then .ok (c.toNat - 0x41 + 10)
  else if 0x61 ≤ c ∧ c ≤ 0x66 then .ok (c.toNat - 0x61 + 10)
  else .error (.format s!"invalid character in Base16 string: '{showBytes [c]}'")

/-- `base16::decode`. -/
def decode : Bytes → Except Error Bytes
  | [] => .ok []
  | [_] => .error (.assertion "s.size() % 2 == 0")
  | c :: c' :: s => do
      let hi ← parseHexDigit c
      let lo ← parseHexDigit c'
      let rest ← decode s
      pure (UInt8.ofNat (hi * 16 + lo) :: rest)

theorem parseHexDigit_digit : ∀ n < 16, parseHexDigit (digit n) = .ok n := by decide

theorem length_encode (b : Bytes) : (encode b).length = encodedLength b.length := by
  induction b with
  | nil => rfl
  | cons c b ih =>
      simp only [encode, encodedLength, List.flatMap_cons, List.length_append, List.length_cons,
        List.length_nil] at ih ⊢
      omega

theorem decode_encode (b : Bytes) : decode (encode b) = .ok b := by
  induction b with
  | nil => rfl
  | cons c b ih =>
      have hc : c.toNat < 256 := c.toNat_lt
      have hhi := parseHexDigit_digit (c.toNat / 16) (by omega)
      have hlo := parseHexDigit_digit (c.toNat % 16) (by omega)
      have hbyte : UInt8.ofNat (c.toNat / 16 * 16 + c.toNat % 16) = c := by
        rw [Nat.div_add_mod', UInt8.ofNat_toNat]
      show decode (digit (c.toNat / 16) :: digit (c.toNat % 16) :: encode b) = _
      rw [decode, hhi, ok_bind, hlo, ok_bind, ih, ok_bind, hbyte]
      rfl

theorem encode_mem {b : Bytes} {c : UInt8} (h : c ∈ encode b) : c ∈ chars := by
  have hdigit (n : Nat) (hn : n < 16) : digit n ∈ chars := by
    have hlen : n < chars.length := hn
    rw [digit, List.getD_eq_getElem _ _ hlen]
    exact List.getElem_mem hlen
  obtain ⟨d, -, hc⟩ := List.mem_flatMap.mp h
  have hd : d.toNat < 256 := d.toNat_lt
  rcases List.mem_cons.mp hc with rfl | hc
  · exact hdigit _ (by omega)
  · rw [List.mem_singleton.mp hc]
    exact hdigit _ (by omega)

end Base16

/-! ## Base64 -/

namespace Base64

/-- `base64Chars`. -/
def chars : Bytes := ascii "ABCDEFGHIJKLMNOPQRSTUVWXYZabcdefghijklmnopqrstuvwxyz0123456789+/"

/-- `base64::encodedLength`. -/
def encodedLength (origSize : Nat) : Nat := (4 * origSize / 3 + 3) / 4 * 4

/-- The digit `base64Chars[n]`. -/
def digit (n : Nat) : UInt8 := chars.getD n 0

/-- The inner `while` of `base64::encode`: emit a digit for every six bits
    (there are at most twelve). -/
def emit (data : Nat) : Nat → Nat → Bytes × Nat
  | 0, nbits => ([], nbits)
  | fuel + 1, nbits =>
      if nbits ≥ 6 then
        let r := emit data fuel (nbits - 6)
        (digit (data / 2 ^ (nbits - 6) % 64) :: r.1, r.2)
      else ([], nbits)

/-- The loop of `base64::encode` and the digit for the bits that are left.
    `data` is a 32-bit `int`. -/
def encodeLoop : Nat → Nat → Bytes → Bytes
  | data, nbits, [] => if nbits ≠ 0 then [digit (data * 2 ^ (6 - nbits) % 64)] else []
  | data, nbits, c :: s =>
      let data := (data * 2 ^ 8 + c.toNat) % 2 ^ 32
      let r := emit data 3 (nbits + 8)
      r.1 ++ encodeLoop data r.2 s

/-- `base64::encode`. -/
def encode (s : Bytes) : Bytes :=
  let res := encodeLoop 0 0 s
  res ++ List.replicate ((4 - res.length % 4) % 4) 0x3d

/-- The table `base64DecodeChars`. -/
def decodeChar (c : UInt8) : Option Nat :=
  if c ∈ chars then some (chars.idxOf c) else none

/-- The loop of `base64::decode`. `d` is an `unsigned int`. -/
def decodeLoop : Nat → Nat → Bytes → Except Error Bytes
  | _, _, [] => .ok []
  | d, bits, c :: s =>
      if c = 0x3d then .ok []
      else if c = 0x0a then decodeLoop d bits s
      else
        match decodeChar c with
        | none => .error (.format s!"invalid character in Base64 string: '{showBytes [c]}'")
        | some n =>
            let d := (d * 2 ^ 6 + n) % 2 ^ 32
            if bits + 6 ≥ 8 then
              (decodeLoop d (bits + 6 - 8) s).map (UInt8.ofNat (d / 2 ^ (bits + 6 - 8) % 256) :: ·)
            else decodeLoop d (bits + 6) s

/-- `base64::decode`. -/
def decode (s : Bytes) : Except Error Bytes := decodeLoop 0 0 s

theorem decodeChar_digit : ∀ n < 64,
    digit n ≠ 0x3d ∧ digit n ≠ 0x0a ∧ decodeChar (digit n) = some n := by decide +kernel

/-- A digit of which a byte is completed. -/
theorem decodeLoop_byte {n : Nat} (hn : n < 64) (d : Nat) {bits : Nat} (hbits : 2 ≤ bits)
    (s : Bytes) :
    decodeLoop d bits (digit n :: s)
      = (decodeLoop ((d * 2 ^ 6 + n) % 2 ^ 32) (bits + 6 - 8) s).map
          (UInt8.ofNat ((d * 2 ^ 6 + n) % 2 ^ 32 / 2 ^ (bits + 6 - 8) % 256) :: ·) := by
  obtain ⟨hpad, hnl, hchar⟩ := decodeChar_digit n hn
  have hfull : bits + 6 ≥ 8 := by omega
  rw [decodeLoop, if_neg hpad, if_neg hnl, hchar]
  simp only [if_pos hfull]

/-- The first digit of a group completes no byte. -/
theorem decodeLoop_start {n : Nat} (hn : n < 64) (d : Nat) (s : Bytes) :
    decodeLoop d 0 (digit n :: s) = decodeLoop ((d * 2 ^ 6 + n) % 2 ^ 32) 6 s := by
  obtain ⟨hpad, hnl, hchar⟩ := decodeChar_digit n hn
  rw [decodeLoop, if_neg hpad, if_neg hnl, hchar]
  rfl

theorem decodeLoop_pad (d bits k : Nat) :
    decodeLoop d bits (List.replicate k 0x3d) = .ok [] := by
  cases k with
  | zero => rfl
  | succ k => rw [List.replicate_succ, decodeLoop, if_pos rfl]

theorem emit_eight (data : Nat) : emit data 3 8 = ([digit (data / 4 % 64)], 2) := rfl

theorem emit_ten (data : Nat) : emit data 3 10 = ([digit (data / 16 % 64)], 4) := rfl

theorem emit_twelve (data : Nat) :
    emit data 3 12 = ([digit (data / 64 % 64), digit (data % 64)], 0) := by
  have hone : data / 2 ^ 0 = data := Nat.div_one data
  show ([digit (data / 64 % 64), digit (data / 2 ^ 0 % 64)], 0) = _
  rw [hone]

/-- The first two digits of a group give its first byte. -/
theorem decodeLoop_first {x y : Nat} (hx : x < 64) (hy : y < 64) {a : UInt8}
    (ha : x * 4 + y / 16 = a.toNat) (d : Nat) (s : Bytes) :
    ∃ d', d' % 16 = y % 16 ∧
      decodeLoop d 0 (digit x :: digit y :: s) = (decodeLoop d' 4 s).map (a :: ·) := by
  have hlt : a.toNat < 256 := a.toNat_lt
  refine ⟨((d * 2 ^ 6 + x) % 2 ^ 32 * 2 ^ 6 + y) % 2 ^ 32, by omega, ?_⟩
  rw [decodeLoop_start hx, decodeLoop_byte hy _ (by omega)]
  have hbyte : UInt8.ofNat (((d * 2 ^ 6 + x) % 2 ^ 32 * 2 ^ 6 + y) % 2 ^ 32 / 2 ^ (6 + 6 - 8) % 256)
      = a := by
    apply UInt8.toNat_inj.mp
    rw [UInt8.toNat_ofNat']
    omega
  rw [hbyte]

/-- The third digit gives the second byte. -/
theorem decodeLoop_second {d z : Nat} (hz : z < 64) {b : UInt8}
    (hb : d % 16 * 16 + z / 4 = b.toNat) (s : Bytes) :
    ∃ d', d' % 4 = z % 4 ∧
      decodeLoop d 4 (digit z :: s) = (decodeLoop d' 2 s).map (b :: ·) := by
  have hlt : b.toNat < 256 := b.toNat_lt
  refine ⟨(d * 2 ^ 6 + z) % 2 ^ 32, by omega, ?_⟩
  rw [decodeLoop_byte hz _ (by omega)]
  have hbyte : UInt8.ofNat ((d * 2 ^ 6 + z) % 2 ^ 32 / 2 ^ (4 + 6 - 8) % 256) = b := by
    apply UInt8.toNat_inj.mp
    rw [UInt8.toNat_ofNat']
    omega
  rw [hbyte]

/-- The fourth digit gives the third byte, and nothing is left over. -/
theorem decodeLoop_third {d w : Nat} (hw : w < 64) {c : UInt8}
    (hc : d % 4 * 64 + w = c.toNat) (s : Bytes) :
    ∃ d', decodeLoop d 2 (digit w :: s) = (decodeLoop d' 0 s).map (c :: ·) := by
  have hlt : c.toNat < 256 := c.toNat_lt
  refine ⟨(d * 2 ^ 6 + w) % 2 ^ 32, ?_⟩
  rw [decodeLoop_byte hw _ (by omega)]
  have hbyte : UInt8.ofNat ((d * 2 ^ 6 + w) % 2 ^ 32 / 2 ^ (2 + 6 - 8) % 256) = c := by
    apply UInt8.toNat_inj.mp
    rw [UInt8.toNat_ofNat']
    omega
  rw [hbyte]

/-- The bits the encoder has not emitted yet, and those the decoder has not
    used yet, are at the low end; what is above them never shows. -/
theorem decodeLoop_encodeLoop : ∀ (s : Bytes) (data d k : Nat),
    decodeLoop d 0 (encodeLoop data 0 s ++ List.replicate k 0x3d) = .ok s
  | [], _, d, k => decodeLoop_pad d 0 k
  | [a], data, d, k => by
      have ha : a.toNat < 256 := a.toNat_lt
      obtain ⟨d₁, hd₁⟩ : ∃ x, x = (data * 2 ^ 8 + a.toNat) % 2 ^ 32 := ⟨_, rfl⟩
      simp only [encodeLoop, ← hd₁, Nat.zero_add, emit_eight, ne_eq, OfNat.ofNat_ne_zero,
        not_false_eq_true, if_true, List.cons_append, List.nil_append]
      obtain ⟨d', -, hfirst⟩ := decodeLoop_first (x := d₁ / 4 % 64) (y := d₁ * 2 ^ (6 - 2) % 64)
        (a := a) (by omega) (by omega) (by omega) d (List.replicate k 0x3d)
      rw [hfirst, decodeLoop_pad]
      rfl
  | [a, b], data, d, k => by
      have ha : a.toNat < 256 := a.toNat_lt
      have hb : b.toNat < 256 := b.toNat_lt
      obtain ⟨d₁, hd₁⟩ : ∃ x, x = (data * 2 ^ 8 + a.toNat) % 2 ^ 32 := ⟨_, rfl⟩
      obtain ⟨d₂, hd₂⟩ : ∃ x, x = (d₁ * 2 ^ 8 + b.toNat) % 2 ^ 32 := ⟨_, rfl⟩
      simp only [encodeLoop, ← hd₁, ← hd₂, Nat.zero_add, emit_eight, Nat.reduceAdd, emit_ten, ne_eq,
        OfNat.ofNat_ne_zero, not_false_eq_true, if_true, List.cons_append, List.nil_append]
      obtain ⟨d', hd', hfirst⟩ := decodeLoop_first (x := d₁ / 4 % 64) (y := d₂ / 16 % 64)
        (a := a) (by omega) (by omega) (by omega) d
        (digit (d₂ * 2 ^ (6 - 4) % 64) :: List.replicate k 0x3d)
      obtain ⟨d'', -, hsecond⟩ := decodeLoop_second (d := d') (z := d₂ * 2 ^ (6 - 4) % 64)
        (b := b) (by omega) (by omega) (List.replicate k 0x3d)
      rw [hfirst, hsecond, decodeLoop_pad]
      rfl
  | a :: b :: c :: s, data, d, k => by
      have ha : a.toNat < 256 := a.toNat_lt
      have hb : b.toNat < 256 := b.toNat_lt
      have hc : c.toNat < 256 := c.toNat_lt
      obtain ⟨d₁, hd₁⟩ : ∃ x, x = (data * 2 ^ 8 + a.toNat) % 2 ^ 32 := ⟨_, rfl⟩
      obtain ⟨d₂, hd₂⟩ : ∃ x, x = (d₁ * 2 ^ 8 + b.toNat) % 2 ^ 32 := ⟨_, rfl⟩
      obtain ⟨d₃, hd₃⟩ : ∃ x, x = (d₂ * 2 ^ 8 + c.toNat) % 2 ^ 32 := ⟨_, rfl⟩
      have henc : encodeLoop data 0 (a :: b :: c :: s)
          = digit (d₁ / 4 % 64) :: digit (d₂ / 16 % 64) :: digit (d₃ / 64 % 64) ::
            digit (d₃ % 64) :: encodeLoop d₃ 0 s := by
        simp only [encodeLoop, ← hd₁, ← hd₂, ← hd₃, Nat.zero_add, emit_eight, Nat.reduceAdd,
          emit_ten, emit_twelve, List.cons_append, List.nil_append]
      rw [henc]
      simp only [List.cons_append]
      obtain ⟨e₁, he₁, hfirst⟩ := decodeLoop_first (x := d₁ / 4 % 64) (y := d₂ / 16 % 64)
        (a := a) (by omega) (by omega) (by omega) d
        (digit (d₃ / 64 % 64) :: digit (d₃ % 64) ::
          (encodeLoop d₃ 0 s ++ List.replicate k 0x3d))
      obtain ⟨e₂, he₂, hsecond⟩ := decodeLoop_second (d := e₁) (z := d₃ / 64 % 64)
        (b := b) (by omega) (by omega)
        (digit (d₃ % 64) :: (encodeLoop d₃ 0 s ++ List.replicate k 0x3d))
      obtain ⟨e₃, hthird⟩ := decodeLoop_third (d := e₂) (w := d₃ % 64) (c := c) (by omega)
        (by omega) (encodeLoop d₃ 0 s ++ List.replicate k 0x3d)
      rw [hfirst, hsecond, hthird, decodeLoop_encodeLoop s d₃ e₃ k]
      rfl

theorem decode_encode (s : Bytes) : decode (encode s) = .ok s :=
  decodeLoop_encodeLoop s 0 0 _

/-- Three bytes make four digits, and what is left over one digit more than it
    has bytes. -/
theorem length_encodeLoop : ∀ (s : Bytes) (data : Nat),
    (encodeLoop data 0 s).length = (4 * s.length + 2) / 3
  | [], _ => rfl
  | [_], _ => by
      simp only [encodeLoop, Nat.zero_add, emit_eight, ne_eq, OfNat.ofNat_ne_zero,
        not_false_eq_true, if_true, List.cons_append, List.nil_append, List.length_cons,
        List.length_nil]
  | [_, _], _ => by
      simp only [encodeLoop, Nat.zero_add, emit_eight, Nat.reduceAdd, emit_ten, ne_eq,
        OfNat.ofNat_ne_zero, not_false_eq_true, if_true, List.cons_append, List.nil_append,
        List.length_cons, List.length_nil]
  | a :: b :: c :: s, data => by
      have henc : ∃ x y z w data', encodeLoop data 0 (a :: b :: c :: s)
          = x :: y :: z :: w :: encodeLoop data' 0 s := by
        simp only [encodeLoop, Nat.zero_add, emit_eight, Nat.reduceAdd, emit_ten, emit_twelve,
          List.cons_append, List.nil_append]
        exact ⟨_, _, _, _, _, rfl⟩
      obtain ⟨x, y, z, w, data', henc⟩ := henc
      have hrest := length_encodeLoop s data'
      rw [henc]
      simp only [List.length_cons]
      omega

theorem length_encode (s : Bytes) : (encode s).length = encodedLength s.length := by
  rw [encode, List.length_append, List.length_replicate, length_encodeLoop, encodedLength]
  omega

theorem digit_mem {n : Nat} (h : n < 64) : digit n ∈ chars := by
  have hlen : n < chars.length := h
  rw [digit, List.getD_eq_getElem _ _ hlen]
  exact List.getElem_mem hlen

theorem emit_mem (data fuel nbits : Nat) : ∀ c ∈ (emit data fuel nbits).1, c ∈ chars := by
  induction fuel generalizing nbits with
  | zero => exact fun c hc => absurd hc List.not_mem_nil
  | succ fuel ih =>
      rw [emit]
      by_cases h : nbits ≥ 6
      · rw [if_pos h]
        intro c hc
        rcases List.mem_cons.mp hc with rfl | hc
        · exact digit_mem (Nat.mod_lt _ (by decide))
        · exact ih _ c hc
      · rw [if_neg h]
        exact fun c hc => absurd hc List.not_mem_nil

theorem encodeLoop_mem (s : Bytes) (data nbits : Nat) : ∀ c ∈ encodeLoop data nbits s, c ∈ chars := by
  induction s generalizing data nbits with
  | nil =>
      rw [encodeLoop]
      by_cases h : nbits ≠ 0
      · rw [if_pos h]
        intro c hc
        rw [List.mem_singleton.mp hc]
        exact digit_mem (Nat.mod_lt _ (by decide))
      · rw [if_neg h]
        exact fun c hc => absurd hc List.not_mem_nil
  | cons a s ih =>
      intro c hc
      rcases List.mem_append.mp hc with hc | hc
      · exact emit_mem _ _ _ c hc
      · exact ih _ _ c hc

/-- Base64 text consists of digits and padding. -/
theorem encode_mem {s : Bytes} {c : UInt8} (h : c ∈ encode s) : c ∈ chars ∨ c = 0x3d := by
  rcases List.mem_append.mp h with h | h
  · exact Or.inl (encodeLoop_mem s 0 0 c h)
  · exact Or.inr (List.eq_of_mem_replicate h)

end Base64

end NixStore
