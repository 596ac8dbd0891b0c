/-
  NixStore.Util.Serialise

  The wire primitives of `libutil/serialise.{hh,cc}`: 64-bit little-endian
  integers, and strings that carry their length in front and are zero-padded
  to a multiple of eight bytes.

  A `Source` is the list of the bytes it has not delivered yet; a reader
  returns its value with the rest of the source, or throws.  A `Sink` is the
  bytes written to it.
-/

import NixStore.Lib.Wire

namespace NixStore

open Wire

/-! ## Errors and texts -/

/-- The exceptions the readers throw, with their texts. -/
inductive Error where
  /-- `EndOfFile`: fewer bytes are left than were asked for. -/
  | endOfFile
  /-- `SerialisationError`. -/
  | serialisation (msg : String)
  /-- `FormatError`. -/
  | format (msg : String)
  /-- `UsageError`. -/
  | usage (msg : String)
  /-- `BadHash`. -/
  | badHash (msg : String)
  /-- `BadStorePath` (a `BadStorePathName` is turned into one). -/
  | badStorePath (msg : String)
  /-- `InvalidPath`. -/
  | invalidPath (msg : String)
  /-- `PathInUse`. -/
  | pathInUse (msg : String)
  /-- A failed `assert`. -/
  | assertion (what : String)
  /-- A plain `Error`, or one of the accessor errors derived from it. -/
  | error (msg : String)
deriving DecidableEq, Repr

/-- The bytes of a text literal (all of them ASCII here). -/
def ascii (s : String) : Bytes := s.toList.map fun c => UInt8.ofNat c.toNat

/-- A byte string as it is shown in a message. -/
def showBytes (bs : Bytes) : String := String.ofList (bs.map fun b => Char.ofNat b.toNat)

/-- The text of a `PathFmt`. -/
def pathFmt (path : Bytes) : String := s!"\"{showBytes path}\""

theorem showBytes_ascii {s : String} (h : ∀ c ∈ s.toList, c.toNat < 256) :
    showBytes (ascii s) = s := by
  have hchars : (ascii s).map (fun b => Char.ofNat b.toNat) = s.toList := by
    rw [ascii, List.map_map]
    conv_rhs => rw [← List.map_id s.toList]
    apply List.map_congr_left
    intro c hc
    have hlt : c.toNat < 2 ^ 8 := h c hc
    show Char.ofNat (UInt8.ofNat c.toNat).toNat = c
    rw [UInt8.toNat_ofNat', Nat.mod_eq_of_lt hlt, Char.ofNat_toNat]
  rw [showBytes, hchars, String.ofList_toList]

/-- A number in decimal. -/
def decimal (n : Nat) : Bytes := ascii (toString n)

theorem isDigit_of_mem_toString {n : Nat} {c : Char} (h : c ∈ (toString n).toList) :
    c.isDigit := by
  rw [Nat.toString_eq_repr, Nat.toList_repr] at h
  exact Nat.isDigit_of_mem_toDigits (by decide) (by decide) h

/-- The characters of a decimal number lie between `'0'` and `'9'`. -/
theorem toNat_of_isDigit {c : Char} (h : c.isDigit) : 48 ≤ c.toNat ∧ c.toNat ≤ 57 := by
  simp only [Char.isDigit, Bool.and_eq_true, decide_eq_true_eq] at h
  exact ⟨h.1, h.2⟩

theorem decimal_injective : Function.Injective decimal := by
  intro m n h
  have hsmall (k : Nat) : ∀ c ∈ (toString k).toList, c.toNat < 256 := by
    intro c hc
    have := (toNat_of_isDigit (isDigit_of_mem_toString hc)).2
    omega
  have htext : toString m = toString n := by
    rw [← showBytes_ascii (hsmall m), ← showBytes_ascii (hsmall n)]
    exact congrArg showBytes h
  rw [Nat.toString_eq_repr, Nat.toString_eq_repr] at htext
  have hdigits := congrArg String.toList htext
  rw [Nat.toList_repr, Nat.toList_repr] at hdigits
  rw [← Nat.ofDigitChars_toDigits (b := 10) (n := m) (by decide) (by decide), hdigits,
    Nat.ofDigitChars_toDigits (by decide) (by decide)]

/-! ## Sequencing

Every reader is a chain of steps that may throw; this inversion is what takes
such a chain apart. -/

theorem bind_eq_ok {ε α β : Type} {x : Except ε α} {f : α → Except ε β} {b : β} :
    (x >>= f) = .ok b ↔ ∃ a, x = .ok a ∧ f a = .ok b := by
  cases x with
  | error e => simp [bind, Except.bind]
  | ok a => simp [bind, Except.bind]

@[simp] theorem ok_bind {ε α β : Type} (a : α) (f : α → Except ε β) :
    ((.ok a : Except ε α) >>= f) = f a := rfl

@[simp] theorem pure_eq_ok {ε α : Type} (a : α) : (pure a : Except ε α) = .ok a := rfl

/-- `if (c) throw e;` -/
def throwIf {ε : Type} (c : Prop) [Decidable c] (e : ε) : Except ε Unit :=
  if c then .error e else .ok ()

@[simp] theorem throwIf_eq_ok {ε : Type} {c : Prop} [Decidable c] {e : ε} {u : Unit} :
    throwIf c e = .ok u ↔ ¬ c := by
  by_cases h : c <;> simp [throwIf, h]

/-! ## Writers -/

/-- `operator<<(Sink &, uint64_t)`. -/
def writeNum (n : Nat) : Bytes :=
  [n &&& 0xff, (n >>> 8) &&& 0xff, (n >>> 16) &&& 0xff, (n >>> 24) &&& 0xff,
    (n >>> 32) &&& 0xff, (n >>> 40) &&& 0xff, (n >>> 48) &&& 0xff,
    (n >>> 56) &&& 0xff].map UInt8.ofNat

/-- `writePadding`. -/
def writePadding (len : Nat) : Bytes :=
  if len % 8 ≠ 0 then List.replicate (8 - len % 8) 0 else []

/-- `writeString`, which is also `operator<<(Sink &, std::string_view)`. -/
def writeString (s : Bytes) : Bytes :=
  writeNum s.length ++ s ++ writePadding s.length

/-! ## Readers -/

/-- `Source::operator()(char *, size_t)`: exactly `len` bytes. -/
def readExact (len : Nat) (source : Bytes) : Except Error (Bytes × Bytes) :=
  if len ≤ source.length then .ok (source.take len, source.drop len)
  else .error .endOfFile

/-- `readNum<uint64_t>`, also used at `size_t`: the range check never fires
    for a 64-bit target type. -/
def readNum (source : Bytes) : Except Error (Nat × Bytes) := do
  let (buf, source) ← readExact 8 source
  pure (leNat buf, source)

/-- `readPadding`. -/
def readPadding (len : Nat) (source : Bytes) : Except Error Bytes :=
  if len % 8 ≠ 0 then do
    let (pad, source) ← readExact (8 - len % 8) source
    throwIf (pad.any (· != 0)) (.serialisation "non-zero padding")
    pure source
  else pure source

/-- `readString(Source &, size_t max)`. -/
def readString (max : Nat) (source : Bytes) : Except Error (Bytes × Bytes) := do
  let (len, source) ← readNum source
  throwIf (len > max) (.serialisation "string is too long")
  let (res, source) ← readExact len source
  let source ← readPadding len source
  pure (res, source)

/-! ## The writers are frames -/

theorem writeNum_eq_leBytes (n : Nat) : writeNum n = leBytes 8 n := by
  have hbyte (m : Nat) : m &&& 0xff = m % 256 := Nat.and_two_pow_sub_one_eq_mod m 8
  simp only [writeNum, leBytes, hbyte, List.map_cons, List.map_nil,
    Nat.shiftRight_eq_div_pow, Nat.div_div_eq_div_mul]

theorem writePadding_eq_replicate (n : Nat) :
    writePadding n = List.replicate (padLen n) 0 := by
  unfold writePadding
  by_cases h : n % 8 = 0
  · simp [h, padLen_of_dvd h]
  · rw [if_pos h, padLen_of_not_dvd h]

theorem writeString_eq_frame (s : Bytes) : writeString s = frame s := by
  rw [writeString, writeNum_eq_leBytes, writePadding_eq_replicate, frame]

@[simp] theorem writeNum_length (n : Nat) : (writeNum n).length = 8 := by
  simp [writeNum_eq_leBytes]

theorem writeString_append_inj {s t r r' : Bytes}
    (hs : s.length < 2 ^ 64) (ht : t.length < 2 ^ 64)
    (h : writeString s ++ r = writeString t ++ r') : s = t ∧ r = r' := by
  rw [writeString_eq_frame, writeString_eq_frame] at h
  exact frame_append_inj hs ht h

/-! ## What each reader accepts -/

theorem readExact_append (bs rest : Bytes) :
    readExact bs.length (bs ++ rest) = .ok (bs, rest) := by
  simp [readExact]

theorem readExact_eq_ok {len : Nat} {source bs rest : Bytes} :
    readExact len source = .ok (bs, rest) ↔ source = bs ++ rest ∧ bs.length = len := by
  constructor
  · intro h
    unfold readExact at h
    split at h
    · rename_i hle
      cases h
      exact ⟨(List.take_append_drop len source).symm, by simpa using hle⟩
    · cases h
  · rintro ⟨rfl, rfl⟩
    exact readExact_append bs rest

theorem readNum_eq_ok {source rest : Bytes} {n : Nat} :
    readNum source = .ok (n, rest) ↔ n < 2 ^ 64 ∧ source = writeNum n ++ rest := by
  have hpow : (256 : Nat) ^ 8 = 2 ^ 64 := by norm_num
  simp only [readNum, bind_eq_ok, Prod.exists, readExact_eq_ok, pure_eq_ok]
  constructor
  · rintro ⟨buf, source', ⟨rfl, hlen⟩, h⟩
    cases h
    refine ⟨by rw [← hpow, ← hlen]; exact leNat_lt buf, ?_⟩
    rw [writeNum_eq_leBytes, ← hlen, leBytes_leNat]
  · rintro ⟨hn, rfl⟩
    refine ⟨writeNum n, rest, ⟨rfl, writeNum_length n⟩, ?_⟩
    rw [writeNum_eq_leBytes, leNat_leBytes (by rw [hpow]; exact hn)]

/-- `readPadding` accepts exactly the padding `writePadding` writes. -/
theorem readPadding_eq_ok {len : Nat} {source rest : Bytes} :
    readPadding len source = .ok rest ↔ source = writePadding len ++ rest := by
  by_cases h : len % 8 = 0
  · simp [readPadding, writePadding, h]
  · simp only [readPadding, writePadding, ne_eq, h, not_false_eq_true, if_true, bind_eq_ok,
      Prod.exists, readExact_eq_ok, throwIf_eq_ok, pure_eq_ok]
    constructor
    · rintro ⟨pad, source', ⟨rfl, hlen⟩, -, hany, hrest⟩
      cases hrest
      have hzero : ∀ b ∈ pad, b = 0 := by simpa using hany
      rw [← hlen, List.eq_replicate_iff.mpr ⟨rfl, hzero⟩]
      simp
    · rintro rfl
      exact ⟨List.replicate (8 - len % 8) 0, rest, ⟨rfl, by simp⟩, (), by simp, rfl⟩

/-- `readString` accepts exactly the strings `writeString` writes, up to the
    length limit of the call. -/
theorem readString_eq_ok {max : Nat} {source s rest : Bytes} :
    readString max source = .ok (s, rest) ↔
      s.length ≤ max ∧ s.length < 2 ^ 64 ∧ source = writeString s ++ rest := by
  simp only [readString, bind_eq_ok, Prod.exists, readNum_eq_ok, readExact_eq_ok,
    readPadding_eq_ok, throwIf_eq_ok, pure_eq_ok]
  constructor
  · rintro ⟨len, source₁, ⟨hlt, rfl⟩, -, hmax, res, source₂, ⟨rfl, rfl⟩, source₃, rfl, h⟩
    cases h
    exact ⟨by omega, hlt, by simp [writeString]⟩
  · rintro ⟨hmax, hlt, rfl⟩
    exact ⟨s.length, s ++ writePadding s.length ++ rest, ⟨hlt, by simp [writeString]⟩,
      (), by omega, s, writePadding s.length ++ rest, ⟨by simp, rfl⟩, rest, rfl, rfl⟩

end NixStore
