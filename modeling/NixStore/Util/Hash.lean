/-
  NixStore.Util.Hash

  Hashes and their texts (`libutil/hash.{hh,cc}`).  The digests themselves are
  computed outside of the repository and do not appear here.
-/

import NixStore.Util.BaseN
import NixStore.Util.BaseNix32

namespace NixStore

/-- `splitPrefixTo` (`libutil/split.hh`): the part before the first separator
    and the part after it. -/
def splitPrefixTo (s : Bytes) (separator : UInt8) : Option (Bytes × Bytes) :=
  if separator ∈ s then
    some (s.takeWhile (· ≠ separator), (s.dropWhile (· ≠ separator)).tail)
  else none

theorem splitPrefixTo_append {front rest : Bytes} {separator : UInt8} (h : separator ∉ front) :
    splitPrefixTo (front ++ separator :: rest) separator = some (front, rest) := by
  have hall : ∀ b ∈ front, decide (b ≠ separator) = true := by
    intro b hb
    have hne : b ≠ separator := fun heq => h (heq ▸ hb)
    simpa using hne
  have hmem : separator ∈ front ++ separator :: rest :=
    List.mem_append_right _ List.mem_cons_self
  rw [splitPrefixTo, if_pos hmem, List.takeWhile_append_of_pos hall,
    List.dropWhile_append_of_pos hall]
  simp

/-- `HashAlgorithm`. -/
inductive HashAlgorithm where
  | md5 | sha1 | sha256 | sha512 | blake3
deriving DecidableEq, Repr

/-- `HashFormat`. -/
inductive HashFormat where
  | base64 | nix32 | base16 | sri
deriving DecidableEq, Repr

/-- `regularHashSize`. -/
def regularHashSize : HashAlgorithm → Nat
  | .blake3 => 32
  | .md5 => 16
  | .sha1 => 20
  | .sha256 => 32
  | .sha512 => 64

/-- `printHashAlgo`. -/
def printHashAlgo : HashAlgorithm → Bytes
  | .blake3 => ascii "blake3"
  | .md5 => ascii "md5"
  | .sha1 => ascii "sha1"
  | .sha256 => ascii "sha256"
  | .sha512 => ascii "sha512"

/-- `parseHashAlgo`. -/
def parseHashAlgo (s : Bytes) : Except Error HashAlgorithm :=
  if s = ascii "blake3" then .ok .blake3
  else if s = ascii "md5" then .ok .md5
  else if s = ascii "sha1" then .ok .sha1
  else if s = ascii "sha256" then .ok .sha256
  else if s = ascii "sha512" then .ok .sha512
  else .error (.usage (s!"unknown hash algorithm '{showBytes s}', expect 'blake3', 'md5', " ++
    "'sha1', 'sha256', or 'sha512'"))

/-- `Hash`, of the regular size for its algorithm. -/
structure Hash where
  algo : HashAlgorithm
  bytes : Bytes
  size_eq : bytes.length = regularHashSize algo
deriving DecidableEq

namespace Hash

/-- Zeros of the regular size. -/
theorem size_zeros (algo : HashAlgorithm) :
    (List.replicate (regularHashSize algo) (0 : UInt8)).length = regularHashSize algo :=
  List.length_replicate

/-- The part of `Hash::to_string` behind the algorithm. -/
def digits (h : Hash) : HashFormat → Bytes
  | .base16 => Base16.encode h.bytes
  | .nix32 => BaseNix32.encode h.bytes
  | .base64 => Base64.encode h.bytes
  | .sri => Base64.encode h.bytes

/-- `Hash::to_string`. -/
def toText (h : Hash) (hashFormat : HashFormat) (includeAlgo : Bool) : Bytes :=
  (if hashFormat = .sri ∨ includeAlgo then
    printHashAlgo h.algo ++ [if hashFormat = .sri then 0x2d else 0x3a]
  else []) ++ h.digits hashFormat

/-- `baseExplicit`: the decoder of a format and its name in messages. -/
def baseExplicit : HashFormat → (Bytes → Except Error Bytes) × String
  | .base16 => (Base16.decode, "base16")
  | .nix32 => (BaseNix32.decode, "nix32")
  | .base64 => (Base64.decode, "Base64")
  | .sri => (Base64.decode, "SRI")

/-- `baseFromSize`. -/
def baseFromSize (rest : Bytes) (algo : HashAlgorithm) : Except Error HashFormat :=
  let hashSize := regularHashSize algo
  if rest.length = Base16.encodedLength hashSize then .ok .base16
  else if rest.length = BaseNix32.encodedLength hashSize then .ok .nix32
  else if rest.length = Base64.encodedLength hashSize then .ok .base64
  else .error (.badHash (s!"hash '{showBytes rest}' has wrong length for hash algorithm " ++
    s!"'{showBytes (printHashAlgo algo)}'"))

/-- `parseLowLevel`.  An `Error` of the decoder is caught and not thrown again,
    which leaves `d` empty. -/
def parseLowLevel (rest : Bytes) (algo : HashAlgorithm)
    (pair : (Bytes → Except Error Bytes) × String) : Except Error Hash :=
  match pair.1 rest with
  | .error (.assertion what) => .error (.assertion what)
  | r =>
      let d := r.toOption.getD []
      if h : d.length = regularHashSize algo then .ok ⟨algo, d, h⟩
      else .error (.badHash (s!"invalid {pair.2} hash '{showBytes rest}', length {d.length} != " ++
        s!"expected length {regularHashSize algo}"))

/-- The algorithm in front of the separator, what is behind it, and whether
    the separator is that of an SRI hash (in `parseAnyHelper`). -/
def splitAlgo (rest : Bytes) : Except Error (Option HashAlgorithm × Bytes × Bool) :=
  match splitPrefixTo rest 0x3a with
  | some (hashRaw, rest) => (parseHashAlgo hashRaw).map fun algo => (some algo, rest, false)
  | none =>
      match splitPrefixTo rest 0x2d with
      | some (hashRaw, rest) => (parseHashAlgo hashRaw).map fun algo => (some algo, rest, true)
      | none => .ok (none, rest, false)

/-- `parseAnyHelper`. -/
def parseAnyHelper (rest : Bytes)
    (resolveAlgo : Option HashAlgorithm → Except Error HashAlgorithm) :
    Except Error (Hash × HashFormat) := do
  let (optParsedAlgo, rest, isSRI) ← splitAlgo rest
  let algo ← resolveAlgo optParsedAlgo
  let format ← if isSRI then pure .sri else baseFromSize rest algo
  let h ← parseLowLevel rest algo (baseExplicit format)
  pure (h, format)

/-- `Hash::parseAnyPrefixed`. -/
def parseAnyPrefixed (original : Bytes) : Except Error Hash := do
  let (h, _) ← parseAnyHelper original fun
    | none => .error (.badHash s!"hash '{showBytes original}' does not include a type")
    | some algo => .ok algo
  pure h

/-- `Hash::parseAnyReturningFormat`. -/
def parseAnyReturningFormat (original : Bytes) (optAlgo : Option HashAlgorithm) :
    Except Error (Hash × HashFormat) :=
  parseAnyHelper original fun optParsedAlgo =>
    match optParsedAlgo, optAlgo with
    | none, none => .error (.badHash (s!"hash '{showBytes original}' does not include a type, " ++
        "nor is the type otherwise known from context"))
    | none, some algo => .ok algo
    | some algo, none => .ok algo
    | some parsed, some algo =>
        if parsed ≠ algo then .error (.badHash (s!"hash '{showBytes original}' should have type " ++
          s!"'{showBytes (printHashAlgo algo)}'"))
        else .ok parsed

/-- `Hash::parseAny`. -/
def parseAny (original : Bytes) (optAlgo : Option HashAlgorithm) : Except Error Hash :=
  (parseAnyReturningFormat original optAlgo).map Prod.fst

/-- `Hash::parseExplicitFormatUnprefixed`, for a format that is not SRI. -/
def parseExplicitFormatUnprefixed (s : Bytes) (algo : HashAlgorithm) (format : HashFormat) :
    Except Error Hash := parseLowLevel s algo (baseExplicit format)

/-- `Hash::parseNonSRIUnprefixed`. -/
def parseNonSRIUnprefixed (s : Bytes) (algo : HashAlgorithm) : Except Error Hash := do
  let format ← baseFromSize s algo
  parseLowLevel s algo (baseExplicit format)

/-- `Hash::parseSRI`. -/
def parseSRI (original : Bytes) : Except Error Hash :=
  match splitPrefixTo original 0x2d with
  | none => .error (.badHash s!"hash '{showBytes original}' is not SRI")
  | some (hashRaw, rest) => do
      let parsedType ← parseHashAlgo hashRaw
      parseLowLevel rest parsedType (baseExplicit .sri)

/-! ## Texts are read back -/

theorem parseHashAlgo_print (algo : HashAlgorithm) :
    parseHashAlgo (printHashAlgo algo) = .ok algo := by
  cases algo <;> rfl

theorem colon_not_mem_print (algo : HashAlgorithm) : 0x3a ∉ printHashAlgo algo := by
  cases algo <;> decide

theorem parseLowLevel_of_decode {rest : Bytes} {pair : (Bytes → Except Error Bytes) × String}
    {h : Hash} (hdec : pair.1 rest = .ok h.bytes) : parseLowLevel rest h.algo pair = .ok h := by
  unfold parseLowLevel
  rw [hdec]
  exact dif_pos h.size_eq

theorem baseFromSize_base16 (h : Hash) : baseFromSize (h.digits .base16) h.algo = .ok .base16 := by
  have hlen : (h.digits .base16).length = Base16.encodedLength (regularHashSize h.algo) := by
    rw [digits, Base16.length_encode, h.size_eq]
  unfold baseFromSize
  exact if_pos hlen

theorem baseFromSize_nix32 (h : Hash) : baseFromSize (h.digits .nix32) h.algo = .ok .nix32 := by
  have hne : h.bytes.length ≠ 0 := by
    rw [h.size_eq]
    cases h.algo <;> decide
  have hlen : (h.digits .nix32).length = BaseNix32.encodedLength (regularHashSize h.algo) := by
    rw [digits, BaseNix32.length_encode hne, h.size_eq]
  -- no algorithm has a Nix32 text as long as its Base16 text
  have hother : BaseNix32.encodedLength (regularHashSize h.algo)
      ≠ Base16.encodedLength (regularHashSize h.algo) := by
    cases h.algo <;> decide
  unfold baseFromSize
  simp only [hlen, if_neg hother, if_true]

theorem parseNonSRIUnprefixed_nix32 (h : Hash) :
    parseNonSRIUnprefixed (h.toText .nix32 false) h.algo = .ok h := by
  have htext : h.toText .nix32 false = h.digits .nix32 := rfl
  rw [parseNonSRIUnprefixed, htext, baseFromSize_nix32, ok_bind]
  exact parseLowLevel_of_decode (BaseNix32.decode_encode h.bytes)

theorem parseSRI_toText (h : Hash) : parseSRI (h.toText .sri true) = .ok h := by
  have htext : h.toText .sri true = printHashAlgo h.algo ++ 0x2d :: h.digits .sri := by
    simp [toText]
  have hdash : 0x2d ∉ printHashAlgo h.algo := by
    cases h.algo <;> decide
  rw [parseSRI, htext, splitPrefixTo_append hdash]
  simp only [parseHashAlgo_print, ok_bind]
  exact parseLowLevel_of_decode (Base64.decode_encode h.bytes)

theorem parseAnyPrefixed_base16 (h : Hash) :
    parseAnyPrefixed (h.toText .base16 true) = .ok h := by
  have htext : h.toText .base16 true = printHashAlgo h.algo ++ 0x3a :: h.digits .base16 := by
    simp [toText]
  have hsplit : splitAlgo (h.toText .base16 true)
      = .ok (some h.algo, h.digits .base16, false) := by
    rw [splitAlgo, htext, splitPrefixTo_append (colon_not_mem_print h.algo)]
    simp only [parseHashAlgo_print]
    rfl
  have hlow : parseLowLevel (h.digits .base16) h.algo (Base16.decode, "base16") = .ok h :=
    parseLowLevel_of_decode (Base16.decode_encode h.bytes)
  simp only [parseAnyPrefixed, parseAnyHelper, hsplit, ok_bind, Bool.false_eq_true, if_false,
    baseFromSize_base16, baseExplicit, hlow, pure_eq_ok]

/-- The texts that the database keeps have no NUL. -/
theorem nul_not_mem_toText (h : Hash) {hashFormat : HashFormat}
    (hformat : hashFormat = .base16 ∨ hashFormat = .nix32) : 0 ∉ h.toText hashFormat true := by
  have halgo : 0 ∉ printHashAlgo h.algo := by
    cases h.algo <;> decide
  intro hmem
  rcases List.mem_append.mp hmem with hmem | hmem
  · rw [if_pos (Or.inr rfl)] at hmem
    rcases List.mem_append.mp hmem with hmem | hmem
    · exact halgo hmem
    · rcases hformat with rfl | rfl
      · exact absurd (List.mem_singleton.mp hmem) (by decide)
      · exact absurd (List.mem_singleton.mp hmem) (by decide)
  · rcases hformat with rfl | rfl
    · exact absurd (Base16.encode_mem hmem) (by decide)
    · exact absurd (BaseNix32.encode_mem hmem) (by decide)

end Hash

end NixStore
