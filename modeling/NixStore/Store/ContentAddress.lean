/-
  NixStore.Store.ContentAddress

  Content addresses and their texts (`libstore/content-address.{hh,cc}`), and
  the store paths computed from them (`libstore/store-dir-config.cc`).

  The digests come from outside of the repository: `hashString` is a parameter
  of the store.
-/

import NixStore.Lib.OrderedSet
import NixStore.Store.Path
import NixStore.Util.Hash

namespace NixStore

/-- `FileIngestionMethod`. -/
inductive FileIngestionMethod where
  | flat | nixArchive
deriving DecidableEq, Repr

/-- `ContentAddressMethod`. -/
inductive ContentAddressMethod where
  | flat | nixArchive | text
deriving DecidableEq, Repr

/-- `makeFileIngestionPrefix`. -/
def makeFileIngestionPrefix : FileIngestionMethod → Bytes
  | .flat => []
  | .nixArchive => ascii "r:"

/-- `ContentAddressMethod::getFileIngestionMethod`. -/
def ContentAddressMethod.getFileIngestionMethod : ContentAddressMethod → FileIngestionMethod
  | .flat => .flat
  | .nixArchive => .nixArchive
  | .text => .flat

/-- `renderPrefixModern`. -/
def renderPrefixModern : ContentAddressMethod → Bytes
  | .text => ascii "text:"
  | m => ascii "fixed:" ++ makeFileIngestionPrefix m.getFileIngestionMethod

/-- `splitPrefix` (`libutil/split.hh`): the rest behind a prefix. -/
def splitPrefix (s pre : Bytes) : Option Bytes :=
  if pre <+: s then some (s.drop pre.length) else none

/-- `ContentAddress`. -/
structure ContentAddress where
  method : ContentAddressMethod
  hash : Hash
deriving DecidableEq

namespace ContentAddress

/-- `ContentAddress::render`. -/
def render (ca : ContentAddress) : Bytes :=
  renderPrefixModern ca.method ++ ca.hash.toText .nix32 true

/-- The lambda `parseHashAlgorithm_`. -/
def parseHashAlgorithm (wholeInput rest : Bytes) : Except Error (HashAlgorithm × Bytes) :=
  match splitPrefixTo rest 0x3a with
  | none => .error (.usage (s!"content address hash must be in form '<algo>:<hash>', but found: " ++
      showBytes wholeInput))
  | some (hashAlgoRaw, rest) => (parseHashAlgo hashAlgoRaw).map fun algo => (algo, rest)

/-- `parseContentAddressMethodPrefix`. -/
def parseContentAddressMethodPrefix (wholeInput : Bytes) :
    Except Error (ContentAddressMethod × HashAlgorithm × Bytes) :=
  match splitPrefixTo wholeInput 0x3a with
  | none => .error (.usage ("not a content address because it is not in the form " ++
      s!"'<prefix>:<rest>': {showBytes wholeInput}"))
  | some (pre, rest) =>
      if pre = ascii "text" then
        (parseHashAlgorithm wholeInput rest).map fun r => (.text, r.1, r.2)
      else if pre = ascii "fixed" then
        match splitPrefix rest (ascii "r:") with
        | some rest =>
            (parseHashAlgorithm wholeInput rest).map fun r => (.nixArchive, r.1, r.2)
        | none => (parseHashAlgorithm wholeInput rest).map fun r => (.flat, r.1, r.2)
      else .error (.usage (s!"content address prefix '{showBytes pre}' is unrecognized. " ++
        "Recogonized prefixes are 'text' or 'fixed'"))

/-- `ContentAddress::parse`. -/
def parse (rawCa : Bytes) : Except Error ContentAddress := do
  let (caMethod, hashAlgo, rest) ← parseContentAddressMethodPrefix rawCa
  let hash ← Hash.parseNonSRIUnprefixed rest hashAlgo
  pure { method := caMethod, hash }

/-- `ContentAddress::parseOpt`. -/
def parseOpt (rawCaOpt : Bytes) : Except Error (Option ContentAddress) :=
  if rawCaOpt = [] then .ok none else (parse rawCaOpt).map some

/-- `renderContentAddress`. -/
def renderOpt (ca : Option ContentAddress) : Bytes := (ca.map render).getD []

theorem toText_nix32 (h : Hash) :
    h.toText .nix32 true = printHashAlgo h.algo ++ 0x3a :: h.toText .nix32 false := by
  simp [Hash.toText]

theorem parseHashAlgorithm_toText (wholeInput : Bytes) (h : Hash) :
    parseHashAlgorithm wholeInput (h.toText .nix32 true)
      = .ok (h.algo, h.toText .nix32 false) := by
  rw [parseHashAlgorithm, toText_nix32, splitPrefixTo_append (Hash.colon_not_mem_print h.algo)]
  simp only [Hash.parseHashAlgo_print]
  rfl

/-- A rendered content address is read back. -/
theorem parse_render (ca : ContentAddress) : parse ca.render = .ok ca := by
  obtain ⟨method, hash⟩ := ca
  have hprefix : parseContentAddressMethodPrefix (render ⟨method, hash⟩)
      = .ok (method, hash.algo, hash.toText .nix32 false) := by
    cases method with
    | text =>
        have hrender : render ⟨.text, hash⟩ = ascii "text" ++ 0x3a :: hash.toText .nix32 true := rfl
        rw [parseContentAddressMethodPrefix, hrender, splitPrefixTo_append (by decide)]
        simp only [if_true, parseHashAlgorithm_toText]
        rfl
    | nixArchive =>
        have hrender : render ⟨.nixArchive, hash⟩
            = ascii "fixed" ++ 0x3a :: (ascii "r:" ++ hash.toText .nix32 true) := rfl
        have hmethod : splitPrefix (ascii "r:" ++ hash.toText .nix32 true) (ascii "r:")
            = some (hash.toText .nix32 true) := by
          rw [splitPrefix, if_pos (List.prefix_append _ _), List.drop_left]
        rw [parseContentAddressMethodPrefix, hrender, splitPrefixTo_append (by decide)]
        simp only [if_neg (show ascii "fixed" ≠ ascii "text" by decide), if_true, hmethod,
          parseHashAlgorithm_toText]
        rfl
    | flat =>
        have hrender : render ⟨.flat, hash⟩ = ascii "fixed" ++ 0x3a :: hash.toText .nix32 true := rfl
        -- no algorithm's name starts with an `r`
        have hmethod : splitPrefix (hash.toText .nix32 true) (ascii "r:") = none := by
          rw [splitPrefix, toText_nix32]
          cases hash.algo <;> rfl
        rw [parseContentAddressMethodPrefix, hrender, splitPrefixTo_append (by decide)]
        simp only [if_neg (show ascii "fixed" ≠ ascii "text" by decide), if_true, hmethod,
          parseHashAlgorithm_toText]
        rfl
  rw [parse, hprefix, ok_bind]
  simp only [Hash.parseNonSRIUnprefixed_nix32, ok_bind, pure_eq_ok]

theorem nul_not_mem_render (ca : ContentAddress) : 0 ∉ ca.render := by
  have hprefix : ∀ method, 0 ∉ renderPrefixModern method := by
    intro method
    cases method <;> decide
  intro hmem
  rcases List.mem_append.mp hmem with hmem | hmem
  · exact hprefix ca.method hmem
  · exact ca.hash.nul_not_mem_toText (Or.inr rfl) hmem

theorem render_ne_nil (ca : ContentAddress) : ca.render ≠ [] := by
  obtain ⟨method, hash⟩ := ca
  cases method <;> simp [render, renderPrefixModern, ascii]

end ContentAddress

/-! ## Store paths from content addresses -/

/-- `StoreReferences`. -/
structure StoreReferences where
  others : Finset StorePath
  self : Bool
deriving DecidableEq

/-- `ContentAddressWithReferences`: a `TextInfo` or a `FixedOutputInfo`. -/
inductive ContentAddressWithReferences where
  | text (hash : Hash) (references : Finset StorePath)
  | fixedOutput (method : FileIngestionMethod) (hash : Hash) (references : StoreReferences)
deriving DecidableEq

/-- `StoreDirConfig`, with the digest function of the crypto library. -/
structure StoreDirConfig extends StoreDir where
  hashString : (algo : HashAlgorithm) → Bytes → { h : Hash // h.algo = algo }

namespace StoreDirConfig

variable (store : StoreDirConfig)

/-- `compressHash`: fold a digest by exclusive or. -/
def compressHash (hash : Bytes) (newSize : Nat) : Bytes :=
  hash.zipIdx.foldl (fun h e => h.modify (e.2 % newSize) (· ^^^ e.1)) (List.replicate newSize 0)

/-- `makeStorePath` of a type, a rendered hash and a name. -/
def makeStorePath (type hash name : Bytes) : Except Error StorePath :=
  let s := type ++ ascii ":" ++ hash ++ ascii ":" ++ store.text ++ ascii ":" ++ name
  let h := compressHash (store.hashString .sha256 s).1.bytes 20
  StorePath.ofBaseName (BaseNix32.encode h ++ ascii "-" ++ name)

/-- `makeType`. -/
def makeType (type : Bytes) (references : StoreReferences) : Bytes :=
  type ++ (OrderedSet.inOrder references.others).flatMap (fun i => 0x3a :: store.printStorePath i) ++
    (if references.self then ascii ":self" else [])

/-- `makeFixedOutputPath`. -/
def makeFixedOutputPath (name : Bytes) (method : FileIngestionMethod) (hash : Hash)
    (references : StoreReferences) : Except Error StorePath :=
  if hash.algo = .sha256 ∧ method = .nixArchive then
    store.makeStorePath (store.makeType (ascii "source") references) (hash.toText .base16 true) name
  else if references.self = true ∨ references.others ≠ ∅ then
    .error (.error (s!"fixed output derivation '{showBytes name}' is not allowed to refer to " ++
      "other store paths.\nYou may need to use the 'unsafeDiscardReferences' derivation " ++
      "attribute, see the manual for more details."))
  else
    let payload := ascii "fixed:out:" ++ makeFileIngestionPrefix method ++
      hash.toText .base16 true ++ ascii ":"
    let digest := (store.hashString .sha256 payload).1
    store.makeStorePath (ascii "output:out") (digest.toText .base16 true) name

/-- `makeFixedOutputPathFromCA`. -/
def makeFixedOutputPathFromCA (name : Bytes) :
    ContentAddressWithReferences → Except Error StorePath
  | .text hash references => do
      throwIf (hash.algo ≠ .sha256) (.assertion "ti.hash.algo == HashAlgorithm::SHA256")
      store.makeStorePath (store.makeType (ascii "text") { others := references, self := false })
        (hash.toText .base16 true) name
  | .fixedOutput method hash references => store.makeFixedOutputPath name method hash references

theorem length_compressHash (hash : Bytes) (newSize : Nat) :
    (compressHash hash newSize).length = newSize := by
  have hfold : ∀ (l : List (UInt8 × Nat)) (h : Bytes),
      (l.foldl (fun h e => h.modify (e.2 % newSize) (· ^^^ e.1)) h).length = h.length := by
    intro l
    induction l with
    | nil => exact fun h => rfl
    | cons e l ih =>
        intro h
        rw [List.foldl_cons, ih, List.length_modify]
  rw [compressHash, hfold, List.length_replicate]

/-- A computed path has the name it was computed for, behind a dash. -/
theorem makeStorePath_eq_ok {type hash name : Bytes} {p : StorePath}
    (h : store.makeStorePath type hash name = .ok p) : p.separator = 0x2d ∧ p.name = name := by
  have hbase := StorePath.baseName_of_ofBaseName h
  rw [List.append_assoc] at hbase
  have hlen : (BaseNix32.encode (compressHash (store.hashString .sha256
      (type ++ ascii ":" ++ hash ++ ascii ":" ++ store.text ++ ascii ":" ++ name)).1.bytes
      20)).length = hashLen := by
    rw [BaseNix32.length_encode (by rw [length_compressHash]; decide), length_compressHash]
    rfl
  constructor
  · rw [StorePath.separator, hbase, List.getD_append_right _ _ _ _ (Nat.le_of_eq hlen), hlen]
    rfl
  · rw [StorePath.name, hbase, ← List.append_assoc, ← hlen]
    refine List.drop_left' ?_
    rw [List.length_append]
    rfl

theorem makeFixedOutputPathFromCA_eq_ok {name : Bytes} {ca : ContentAddressWithReferences}
    {p : StorePath} (h : store.makeFixedOutputPathFromCA name ca = .ok p) :
    p.separator = 0x2d ∧ p.name = name := by
  cases ca with
  | text hash references =>
      obtain ⟨_, -, hpath⟩ := bind_eq_ok.mp h
      exact store.makeStorePath_eq_ok hpath
  | fixedOutput method hash references =>
      simp only [makeFixedOutputPathFromCA, makeFixedOutputPath] at h
      split at h
      · exact store.makeStorePath_eq_ok h
      · split at h
        · cases h
        · exact store.makeStorePath_eq_ok h

-- ============================================================================
-- What a computed path covers
-- ============================================================================

/-- The text that `makeStorePath` hashes. -/
def fingerprint (type hash name : Bytes) : Bytes :=
  type ++ ascii ":" ++ hash ++ ascii ":" ++ store.text ++ ascii ":" ++ name

/-- The digest in the hash part of a store path. -/
def pathDigest (s : Bytes) : Bytes := compressHash (store.hashString .sha256 s).1.bytes 20

/-- The text that is hashed for an archive. -/
def sourceFingerprint (name : Bytes) (hash : Hash) (references : StoreReferences) : Bytes :=
  store.fingerprint (store.makeType (ascii "source") references) (hash.toText .base16 true) name

theorem makeFixedOutputPath_source (name : Bytes) {hash : Hash} (hsha : hash.algo = .sha256)
    (references : StoreReferences) :
    store.makeFixedOutputPath name .nixArchive hash references
      = StorePath.ofBaseName (BaseNix32.encode
          (store.pathDigest (store.sourceFingerprint name hash references)) ++ ascii "-" ++ name) := by
  rw [makeFixedOutputPath, if_pos ⟨hsha, rfl⟩]
  rfl

/-- Archives with the same path have texts with the same digest. -/
theorem pathDigest_eq_of_same_path {name : Bytes} {hash hash' : Hash} (hsha : hash.algo = .sha256)
    (hsha' : hash'.algo = .sha256) {references references' : StoreReferences} {p : StorePath}
    (h : store.makeFixedOutputPath name .nixArchive hash references = .ok p)
    (h' : store.makeFixedOutputPath name .nixArchive hash' references' = .ok p) :
    store.pathDigest (store.sourceFingerprint name hash references)
      = store.pathDigest (store.sourceFingerprint name hash' references') := by
  rw [makeFixedOutputPath_source store name hsha] at h
  rw [makeFixedOutputPath_source store name hsha'] at h'
  have hbase := (StorePath.baseName_of_ofBaseName h).symm.trans (StorePath.baseName_of_ofBaseName h')
  rw [List.append_assoc, List.append_assoc] at hbase
  have hlen : ∀ s, (BaseNix32.encode (store.pathDigest s)).length = 32 := by
    intro s
    rw [BaseNix32.length_encode (by rw [pathDigest, length_compressHash]; decide), pathDigest,
      length_compressHash]
    rfl
  have hdigits := (List.append_inj hbase (by rw [hlen, hlen])).1
  have hdecode := congrArg BaseNix32.decode hdigits
  rw [BaseNix32.decode_encode, BaseNix32.decode_encode] at hdecode
  exact Except.ok.inj hdecode

theorem length_toText_base16 {hash : Hash} (hsha : hash.algo = .sha256) :
    (hash.toText .base16 true).length = 71 := by
  have hbytes := hash.size_eq
  rw [hsha] at hbytes
  rw [Hash.toText, hsha]
  simp only [Hash.digits, List.length_append, Base16.length_encode, hbytes]
  rfl

/-- The text says which references there are and which hash it is. -/
theorem sourceFingerprint_without_references {name : Bytes} {hash hash' : Hash}
    (hsha : hash.algo = .sha256) (hsha' : hash'.algo = .sha256) {references : StoreReferences}
    (h : store.sourceFingerprint name hash { others := ∅, self := false }
      = store.sourceFingerprint name hash' references) :
    references = { others := ∅, self := false } ∧ hash = hash' := by
  have hlen := congrArg List.length h
  simp only [sourceFingerprint, fingerprint, List.length_append, length_toText_base16 hsha,
    length_toText_base16 hsha'] at hlen
  have hlength : (store.makeType (ascii "source") references).length
      = (store.makeType (ascii "source") { others := ∅, self := false }).length := by omega
  have hnone : references = { others := ∅, self := false } := by
    obtain ⟨others, self⟩ := references
    have hempty : OrderedSet.inOrder (∅ : Finset StorePath) = [] :=
      OrderedSet.inOrder_eq_nil.mpr rfl
    simp only [makeType, hempty, List.flatMap_nil, List.append_nil, List.length_append] at hlength
    have hothers : OrderedSet.inOrder others = [] := by
      cases hsorted : OrderedSet.inOrder others with
      | nil => rfl
      | cons q rest =>
          rw [hsorted, List.flatMap_cons, List.cons_append] at hlength
          simp only [List.length_cons, Bool.false_eq_true, if_false, List.length_nil] at hlength
          omega
    have hself : self = false := by
      cases self with
      | false => rfl
      | true =>
          simp only [if_true, Bool.false_eq_true, if_false, List.length_nil] at hlength
          have hpos : 0 < (ascii ":self").length := by decide
          omega
    rw [hself, OrderedSet.inOrder_eq_nil.mp hothers]
  refine ⟨hnone, ?_⟩
  rw [hnone] at h
  simp only [sourceFingerprint, fingerprint, List.append_assoc, List.append_cancel_left_eq] at h
  have htext := (List.append_inj h (by rw [length_toText_base16 hsha, length_toText_base16 hsha'])).1
  have hparse := congrArg Hash.parseAnyPrefixed htext
  rw [Hash.parseAnyPrefixed_base16, Hash.parseAnyPrefixed_base16] at hparse
  exact Except.ok.inj hparse

end StoreDirConfig

end NixStore
