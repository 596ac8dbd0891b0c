/-
  NixStore.Store.PathInfoJson

  The JSON of path infos (`libstore/path-info.cc`), with that of what is in
  them (`libstore/path.cc`, `libstore/content-address.cc`, `libutil/hash.cc`,
  `libutil/signature.cc`).

  `toJSON` stores the version as a C++ `int`, and `fromJSON` asks for an
  unsigned number, so that it takes nothing that `toJSON` has made
  (`fromJSON_toJSON`).  What has been through a text in between is read back
  (`fromJSON_reread`), up to the paths that `parseStorePath` does not read.
-/

import NixStore.Store.PathInfo
import NixStore.Util.Json

namespace NixStore

open Json

/-- `PathInfoJsonFormat`. -/
inductive PathInfoJsonFormat where
  | v1 | v2 | v3
deriving DecidableEq, Repr

/-- `UnkeyedValidPathInfo`. -/
structure UnkeyedValidPathInfo where
  storeDir : Bytes
  deriver : Option StorePath
  narHash : Hash
  references : Finset StorePath
  registrationTime : Int64
  narSize : UInt64
  ultimate : Bool
  sigs : Finset Signature
  ca : Option ContentAddress
deriving DecidableEq

-- ============================================================================
-- What is in an info
-- ============================================================================

/-- `adl_serializer<PathInfoJsonFormat>::to_json`. -/
def PathInfoJsonFormat.toJSON : PathInfoJsonFormat → Json
  | .v1 => .numberInteger 1
  | .v2 => .numberInteger 2
  | .v3 => .numberInteger 3

/-- `parsePathInfoJsonFormat`. -/
def parsePathInfoJsonFormat (version : UInt64) : Except Error PathInfoJsonFormat :=
  if version = 1 then .ok .v1
  else if version = 2 then .ok .v2
  else if version = 3 then .ok .v3
  else .error (.error (s!"unsupported path info JSON format version {version}; supported " ++
    "versions are 1, 2 and 3"))

/-- `adl_serializer<StorePath>::to_json`. -/
def StorePath.toJSON (p : StorePath) : Json := .string p.baseName

/-- `adl_serializer<Hash>::to_json`. -/
def Hash.toJSON (h : Hash) : Json := .string (h.toText .sri true)

/-- `ContentAddressMethod::render`. -/
def ContentAddressMethod.render : ContentAddressMethod → Bytes
  | .text => ascii "text"
  | .flat => ascii "flat"
  | .nixArchive => ascii "nar"

/-- `ContentAddressMethod::parse`. -/
def ContentAddressMethod.parse (m : Bytes) : Except Error ContentAddressMethod :=
  if m = ascii "text" then .ok .text
  else if m = ascii "flat" then .ok .flat
  else if m = ascii "nar" then .ok .nixArchive
  else .error (.usage (s!"Unknown file ingestion method '{showBytes m}', expect " ++
    "`flat` or `nar`"))

/-- `adl_serializer<ContentAddress>::to_json`. -/
def ContentAddress.toJSON (ca : ContentAddress) : Json :=
  .object [("method", .string ca.method.render), ("hash", ca.hash.toJSON)]

/-- `adl_serializer<Signature>::to_json`. -/
def Signature.toJSON (s : Signature) : Json :=
  .object [("keyName", .string s.keyName), ("sig", .string (Base64.encode s.sig))]

section
variable (dump : Json → String)

/-- `adl_serializer<PathInfoJsonFormat>::from_json`. -/
def PathInfoJsonFormat.fromJSON (json : Json) : Except Error PathInfoJsonFormat := do
  let version ← getUnsigned dump json
  parsePathInfoJsonFormat version

/-- `adl_serializer<StorePath>::from_json`. -/
def StorePath.fromJSON (json : Json) : Except Error StorePath := do
  let baseName ← getString dump json
  StorePath.ofBaseName baseName

/-- `adl_serializer<Hash>::from_json`. -/
def Hash.fromJSON (json : Json) : Except Error Hash := do
  let s ← getString dump json
  Hash.parseSRI s

/-- `adl_serializer<ContentAddress>::from_json`. -/
def ContentAddress.fromJSON (json : Json) : Except Error ContentAddress := do
  let obj ← getObject dump json
  let rawMethod ← valueAt dump obj "method"
  let rawMethod ← getString dump rawMethod
  let method ← ContentAddressMethod.parse rawMethod
  let rawHash ← valueAt dump obj "hash"
  let hash ← Hash.fromJSON dump rawHash
  pure { method, hash }

/-- `adl_serializer<Signature>::from_json`. -/
def Signature.fromJSON : Json → Except Error Signature
  | .string s => Signature.parse s
  | j => do
      let obj ← getObject dump j
      let rawKeyName ← valueAt dump obj "keyName"
      let keyName ← getString dump rawKeyName
      let rawSig ← valueAt dump obj "sig"
      let rawSig ← getString dump rawSig
      let sig ← Base64.decode rawSig
      pure { keyName, sig }

end

namespace UnkeyedValidPathInfo

/-- `if (format == PathInfoJsonFormat::V1) assert(store);`, and the store that
    the fields of the first format are written with. -/
def assertStore (store : Option StoreDir) :
    PathInfoJsonFormat → Except Error (Option StoreDir)
  | .v1 => match store with
      | some store => .ok (some store)
      | none => .error (.assertion "store")
  | .v2 => .ok none
  | .v3 => .ok none

-- ============================================================================
-- toJSON
-- ============================================================================

/-- A path: in full in the first format, else its base name. -/
def pathToJSON (v1 : Option StoreDir) (p : StorePath) : Json :=
  match v1 with
  | some store => .string (store.printStorePath p)
  | none => p.toJSON

/-- A content address: rendered in the first format. -/
def caToJSON (v1 : Option StoreDir) (ca : ContentAddress) : Json :=
  match v1 with
  | some _ => .string ca.render
  | none => ca.toJSON

/-- A signature: structured from the third format on. -/
def sigToJSON (format : PathInfoJsonFormat) (sig : Signature) : Json :=
  if format = .v3 then sig.toJSON else .string sig.toText

/-- The variable members. -/
def impureMembers (v1 : Option StoreDir) (format : PathInfoJsonFormat)
    (info : UnkeyedValidPathInfo) : List (String × Json) :=
  [("deriver", ofOption (pathToJSON v1) info.deriver),
    ("registrationTime",
      if info.registrationTime = 0 then .null else .numberInteger info.registrationTime),
    ("ultimate", .boolean info.ultimate),
    ("signatures", .array ((OrderedSet.inOrder info.sigs).map (sigToJSON format)))]

/-- `UnkeyedValidPathInfo::toJSON`. -/
def toJSON (store : Option StoreDir) (includeImpureInfo : Bool) (format : PathInfoJsonFormat)
    (info : UnkeyedValidPathInfo) : Except Error Json := do
  let v1 ← assertStore store format
  pure (.object
    ([("version", format.toJSON),
      ("storeDir", .string info.storeDir),
      -- the hash's own JSON is the text that the first format asks for
      ("narHash", .string (info.narHash.toText .sri true)),
      ("narSize", .numberUnsigned info.narSize),
      ("references", .array ((OrderedSet.inOrder info.references).map (pathToJSON v1))),
      ("ca", ofOption (caToJSON v1) info.ca)] ++
    if includeImpureInfo then impureMembers v1 format info else []))

-- ============================================================================
-- fromJSON
-- ============================================================================

section
variable (dump : Json → String)

/-- The version, which older documents do not have. -/
def readFormat (json : List (String × Json)) : Except Error PathInfoJsonFormat :=
  match optionalValueAt json "version" with
  | some version => PathInfoJsonFormat.fromJSON dump version
  | none => .ok .v1

/-- The store directory, which the first format need not say. -/
def readStoreDir (v1 : Option StoreDir) (json : List (String × Json)) : Except Error Bytes :=
  match optionalValueAt json "storeDir" with
  | some rawStoreDir => getString dump rawStoreDir
  | none => match v1 with
      | some store => .ok store.text
      | none => .error (.error
          "'storeDir' field is required in path info JSON format version 2")

/-- A path, as `pathToJSON` writes it. -/
def readPath (v1 : Option StoreDir) (input : Json) : Except Error StorePath :=
  match v1 with
  | some store => do
      let s ← getString dump input
      store.parseStorePath s
  | none => StorePath.fromJSON dump input

/-- A content address, as `caToJSON` writes it. -/
def readCa (v1 : Option StoreDir) (rawCa : Json) : Except Error ContentAddress :=
  match v1 with
  | some _ => do
      let s ← getString dump rawCa
      ContentAddress.parse s
  | none => ContentAddress.fromJSON dump rawCa

/-- A reader applied to a value that may be `null`. -/
def readNullable {α : Type} (read : Json → Except Error α) (value : Json) :
    Except Error (Option α) :=
  match getNullable value with
  | some raw => (read raw).map some
  | none => .ok none

/-- A reader applied to a member that may be missing. -/
def readOptional {α : Type} (json : List (String × Json)) (key : String) (missing : α)
    (read : Json → Except Error α) : Except Error α :=
  match optionalValueAt json key with
  | some raw => read raw
  | none => .ok missing

/-- The signatures; the library converts an array of them. -/
def readSigs : Json → Except Error (Finset Signature)
  | .array elems => readSet (Signature.fromJSON dump) elems
  | value => .error (.error (s!"[json.exception.type_error.302] type must be array, but is " ++
      value.typeName))

/-- `UnkeyedValidPathInfo::fromJSON`. -/
def fromJSON (store : Option StoreDir) (json : Json) : Except Error UnkeyedValidPathInfo := do
  let json ← getObject dump json
  let format ← readFormat dump json
  let v1 ← assertStore store format
  let storeDir ← readStoreDir dump v1 json
  let rawNarHash ← valueAt dump json "narHash"
  let narHash ← Hash.fromJSON dump rawNarHash
  let rawNarSize ← valueAt dump json "narSize"
  let narSize ← getUnsigned dump rawNarSize
  let rawReferences ← valueAt dump json "references"
  let rawReferences ← getArray dump rawReferences
  let references ← readSet (readPath dump v1) rawReferences
  let rawCa ← valueAt dump json "ca"
  let ca ← readNullable (readCa dump v1) rawCa
  let deriver ← readOptional json "deriver" none (readNullable (readPath dump v1))
  let registrationTime ← readOptional json "registrationTime" none
    (readNullable (getInteger dump))
  let ultimate ← readOptional json "ultimate" false (getBoolean dump)
  let sigs ← readOptional json "signatures" ∅ (readSigs dump)
  pure { storeDir, deriver, narHash, references, narSize, ultimate, sigs, ca,
         registrationTime := registrationTime.getD 0 }

-- ============================================================================
-- A document that was never a text
-- ============================================================================

/-- The version is stored from a signed type, and read as an unsigned one. -/
theorem readFormat_toJSON (format : PathInfoJsonFormat) (members : List (String × Json)) :
    ∃ e, readFormat dump (("version", format.toJSON) :: members) = .error e := by
  cases format with
  | v1 => exact ⟨_, rfl⟩
  | v2 => exact ⟨_, rfl⟩
  | v3 => exact ⟨_, rfl⟩

/-- No info is read back from what `toJSON` has made of it. -/
theorem fromJSON_toJSON (store : Option StoreDir) (includeImpureInfo : Bool)
    (format : PathInfoJsonFormat) (info : UnkeyedValidPathInfo) :
    ∃ e, (toJSON store includeImpureInfo format info >>= fromJSON dump store) = .error e := by
  cases hstore : assertStore store format with
  | error e =>
      refine ⟨e, ?_⟩
      rw [toJSON, hstore]
      rfl
  | ok v1 =>
      rw [toJSON, hstore, ok_bind, pure_eq_ok, ok_bind, fromJSON, getObject, ok_bind,
        List.cons_append]
      obtain ⟨e, he⟩ := readFormat_toJSON dump format _
      rw [he]
      exact ⟨e, rfl⟩

end

/-- An info with nothing in it but a hash. -/
def Sample.info : UnkeyedValidPathInfo where
  storeDir := ascii "/nix/store"
  deriver := none
  narHash := ⟨.sha256, List.replicate 32 0, Hash.size_zeros .sha256⟩
  references := ∅
  registrationTime := 0
  narSize := 120
  ultimate := false
  sigs := ∅
  ca := none

/-- The text of an integer. -/
def Sample.dump : Json → String
  | .numberInteger i => toString i.toInt
  | _ => ""

/-- The newest format without a store, as the serialiser of infos calls it. -/
theorem fromJSON_toJSON_sample :
    (∀ s ∈ Sample.info.sigs, s.keyName ≠ [] ∧ 0x3a ∉ s.keyName ∧ s.sig ≠ []) ∧
      (toJSON none true .v3 Sample.info >>= fromJSON Sample.dump none) = .error (.error
        ("Expected JSON value to be an unsigned integral number but it is of type " ++
          "'signed integral number': 3")) := by
  constructor
  · intro s hs
    exact absurd hs (Finset.notMem_empty s)
  · rfl

-- ============================================================================
-- A document that was read from a text
-- ============================================================================

section
variable (dump : Json → String)

/-- A version that was a text is an unsigned number. -/
theorem fromJSON_reread_format (format : PathInfoJsonFormat) :
    PathInfoJsonFormat.fromJSON dump format.toJSON.reread = .ok format := by
  cases format with
  | v1 => rfl
  | v2 => rfl
  | v3 => rfl

theorem reread_pathToJSON (v1 : Option StoreDir) (p : StorePath) :
    (pathToJSON v1 p).reread = pathToJSON v1 p := by
  cases v1 with
  | none => rfl
  | some store => rfl

theorem reread_caToJSON (v1 : Option StoreDir) (ca : ContentAddress) :
    (caToJSON v1 ca).reread = caToJSON v1 ca := by
  cases v1 with
  | none => rfl
  | some store => rfl

theorem reread_sigToJSON (format : PathInfoJsonFormat) (sig : Signature) :
    (sigToJSON format sig).reread = sigToJSON format sig := by
  cases format with
  | v1 => rfl
  | v2 => rfl
  | v3 => rfl

/-- A path that is read back: in full, unless a slash ends its hash part. -/
def Readable (v1 : Option StoreDir) (p : StorePath) : Prop := v1.isSome → p.separator ≠ 0x2f

theorem readPath_pathToJSON {v1 : Option StoreDir} {p : StorePath} (h : Readable v1 p) :
    readPath dump v1 (pathToJSON v1 p) = .ok p := by
  cases v1 with
  | none => exact p.ofBaseName_baseName
  | some store => exact store.parseStorePath_print (h rfl)

theorem readable_of_readPath {v1 : Option StoreDir} {p q : StorePath}
    (h : readPath dump v1 (pathToJSON v1 p) = .ok q) : Readable v1 p := by
  cases v1 with
  | none =>
      intro hsome
      exact absurd hsome (by decide)
  | some store =>
      intro _ hslash
      obtain ⟨e, he⟩ := store.parseStorePath_slash hslash
      have hread : store.parseStorePath (store.printStorePath p) = .ok q := h
      rw [he] at hread
      cases hread

theorem parse_render_method (m : ContentAddressMethod) :
    ContentAddressMethod.parse m.render = .ok m := by
  cases m with
  | flat => rfl
  | nixArchive => rfl
  | text => rfl

theorem readCa_caToJSON (v1 : Option StoreDir) (ca : ContentAddress) :
    readCa dump v1 (caToJSON v1 ca) = .ok ca := by
  cases v1 with
  | none =>
      show ContentAddress.fromJSON dump ca.toJSON = .ok ca
      have hmethod : valueAt dump [("method", .string ca.method.render), ("hash", ca.hash.toJSON)]
          "method" = .ok (.string ca.method.render) := rfl
      have hhash : valueAt dump [("method", .string ca.method.render), ("hash", ca.hash.toJSON)]
          "hash" = .ok ca.hash.toJSON := rfl
      have hread : Hash.fromJSON dump ca.hash.toJSON = .ok ca.hash := ca.hash.parseSRI_toText
      rw [ContentAddress.toJSON, ContentAddress.fromJSON, getObject, ok_bind, hmethod, ok_bind,
        getString, ok_bind, parse_render_method, ok_bind, hhash, ok_bind, hread, ok_bind]
      rfl
  | some store => exact ca.parse_render

theorem fromJSON_sigToJSON (format : PathInfoJsonFormat) {sig : Signature}
    (hkey : sig.keyName ≠ []) (hcolon : 0x3a ∉ sig.keyName) (hsig : sig.sig ≠ []) :
    Signature.fromJSON dump (sigToJSON format sig) = .ok sig := by
  unfold sigToJSON
  by_cases hformat : format = .v3
  · rw [if_pos hformat]
    have hname : valueAt dump [("keyName", .string sig.keyName),
        ("sig", .string (Base64.encode sig.sig))] "keyName" = .ok (.string sig.keyName) := rfl
    have hbytes : valueAt dump [("keyName", .string sig.keyName),
        ("sig", .string (Base64.encode sig.sig))] "sig"
          = .ok (.string (Base64.encode sig.sig)) := rfl
    rw [Signature.toJSON, Signature.fromJSON, getObject, ok_bind, hname, ok_bind, getString,
      ok_bind, hbytes, ok_bind, getString, ok_bind, Base64.decode_encode, ok_bind]
    · rfl
    · exact fun s h => Json.noConfusion h
  · rw [if_neg hformat]
    exact Signature.parse_toText_alone hkey hcolon hsig

theorem readSigs_toJSON (format : PathInfoJsonFormat) {sigs : Finset Signature}
    (hsigs : ∀ s ∈ sigs, s.keyName ≠ [] ∧ 0x3a ∉ s.keyName ∧ s.sig ≠ []) :
    readSigs dump (.array ((OrderedSet.inOrder sigs).map (sigToJSON format))) = .ok sigs := by
  have hread : readSet (Signature.fromJSON dump)
      ((OrderedSet.inOrder sigs).map (sigToJSON format))
        = .ok (OrderedSet.inOrder sigs).toFinset := by
    apply readSet_map
    intro sig hsig
    obtain ⟨hkey, hcolon, hbytes⟩ := hsigs sig (OrderedSet.mem_inOrder.mp hsig)
    exact fromJSON_sigToJSON dump format hkey hcolon hbytes
  rw [OrderedSet.toFinset_inOrder] at hread
  exact hread

/-- A list that nothing in a text changes. -/
theorem rereadElems_map {α : Type} {write : α → Json} (hfixed : ∀ a, (write a).reread = write a)
    (l : List α) : rereadElems (l.map write) = l.map write := by
  rw [rereadElems_eq_map, List.map_map]
  exact List.map_congr_left fun a _ => hfixed a

theorem reread_ofOption {α : Type} {write : α → Json} (hfixed : ∀ a, (write a).reread = write a)
    (t : Option α) : (ofOption write t).reread = ofOption write t := by
  cases t with
  | none => rfl
  | some a => exact hfixed a

theorem readNullable_ca (v1 : Option StoreDir) (ca : Option ContentAddress) :
    readNullable (readCa dump v1) (ofOption (caToJSON v1) ca) = .ok ca := by
  cases ca with
  | none => rfl
  | some ca =>
      have hread := readCa_caToJSON dump v1 ca
      have hsome : getNullable (caToJSON v1 ca) = some (caToJSON v1 ca) := by
        cases v1 with
        | none => rfl
        | some store => rfl
      rw [ofOption, Option.map_some, Option.getD_some, readNullable, hsome]
      show (readCa dump v1 (caToJSON v1 ca)).map some = _
      rw [hread]
      rfl

/-- A time of zero is written as `null`. -/
theorem readNullable_time (time : Int64) :
    ∃ t, readNullable (getInteger dump)
        (if time = 0 then Json.null else .numberInteger time).reread = .ok t ∧
      t.getD 0 = time := by
  by_cases hzero : time = 0
  · rw [if_pos hzero]
    exact ⟨none, rfl, hzero.symm⟩
  · rw [if_neg hzero]
    refine ⟨some time, ?_, rfl⟩
    have hsome : getNullable (rereadInteger time) = some (rereadInteger time) := by
      unfold rereadInteger
      by_cases hpos : 0 ≤ time
      · rw [if_pos hpos]
        rfl
      · rw [if_neg hpos]
        rfl
    rw [Json.reread, readNullable, hsome]
    show (getInteger dump (rereadInteger time)).map some = _
    rw [getInteger_rereadInteger]
    rfl

/-- What is read after a text is what was written, but for the paths that have
    to be read. -/
theorem fromJSON_reread_eq (store : Option StoreDir) (format : PathInfoJsonFormat)
    {v1 : Option StoreDir} (hstore : assertStore store format = .ok v1)
    (info : UnkeyedValidPathInfo)
    (hsigs : ∀ s ∈ info.sigs, s.keyName ≠ [] ∧ 0x3a ∉ s.keyName ∧ s.sig ≠ []) :
    (toJSON store true format info >>= fun json => fromJSON dump store json.reread) = (do
      let references ← readSet (readPath dump v1)
        ((OrderedSet.inOrder info.references).map (pathToJSON v1))
      let deriver ← readNullable (readPath dump v1) (ofOption (pathToJSON v1) info.deriver)
      pure { info with references, deriver }) := by
  obtain ⟨time, htime, hgetD⟩ := readNullable_time dump info.registrationTime
  have hhash : Hash.fromJSON dump (.string (info.narHash.toText .sri true)) = .ok info.narHash :=
    info.narHash.parseSRI_toText
  rw [toJSON, hstore, ok_bind, pure_eq_ok, ok_bind, Json.reread, fromJSON, getObject, ok_bind]
  simp only [if_true, impureMembers, List.cons_append, List.nil_append, rereadMembers, readFormat,
    optionalValueAt, List.lookup_cons, beq_self_eq_true, fromJSON_reread_format, ok_bind, hstore,
    readStoreDir, valueAt, readOptional, String.reduceBEq]
  rw [reread_ofOption (reread_caToJSON v1), readNullable_ca,
    reread_ofOption (reread_pathToJSON v1), htime]
  simp only [Json.reread, getString, getUnsigned, getArray, getBoolean, ok_bind, hhash, hgetD,
    rereadElems_map (reread_pathToJSON v1), rereadElems_map (reread_sigToJSON format),
    readSigs_toJSON dump format hsigs]

-- ============================================================================
-- The round trip through a text
-- ============================================================================

/-- The paths of an info that a document writes. -/
def Paths (info : UnkeyedValidPathInfo) (p : StorePath) : Prop :=
  p ∈ info.references ∨ info.deriver = some p

theorem readNullable_paths {v1 : Option StoreDir} {deriver : Option StorePath}
    (h : ∀ p, deriver = some p → Readable v1 p) :
    readNullable (readPath dump v1) (ofOption (pathToJSON v1) deriver) = .ok deriver := by
  cases deriver with
  | none => rfl
  | some p =>
      have hread := readPath_pathToJSON dump (h p rfl)
      have hsome : getNullable (pathToJSON v1 p) = some (pathToJSON v1 p) := by
        cases v1 with
        | none => rfl
        | some store => rfl
      rw [ofOption, Option.map_some, Option.getD_some, readNullable, hsome]
      show (readPath dump v1 (pathToJSON v1 p)).map some = _
      rw [hread]
      rfl

theorem readable_of_readNullable {v1 : Option StoreDir} {p : StorePath} {r : Option StorePath}
    (h : readNullable (readPath dump v1) (ofOption (pathToJSON v1) (some p)) = .ok r) :
    Readable v1 p := by
  have hsome : getNullable (pathToJSON v1 p) = some (pathToJSON v1 p) := by
    cases v1 with
    | none => rfl
    | some store => rfl
  rw [ofOption, Option.map_some, Option.getD_some, readNullable, hsome] at h
  cases hread : readPath dump v1 (pathToJSON v1 p) with
  | ok q => exact readable_of_readPath dump hread
  | error e =>
      simp only [hread] at h
      cases h

/-- An info whose signatures have proper names and are not empty is read back
    from the text of its document, except that the first format loses the
    paths that are not read in full. -/
theorem fromJSON_reread (store : Option StoreDir) (format : PathInfoJsonFormat)
    {v1 : Option StoreDir} (hstore : assertStore store format = .ok v1)
    (info : UnkeyedValidPathInfo)
    (hsigs : ∀ s ∈ info.sigs, s.keyName ≠ [] ∧ 0x3a ∉ s.keyName ∧ s.sig ≠ []) :
    (toJSON store true format info >>= fun json => fromJSON dump store json.reread) = .ok info ↔
      ∀ p, info.Paths p → Readable v1 p := by
  rw [fromJSON_reread_eq dump store format hstore info hsigs]
  constructor
  · intro h p hp
    obtain ⟨references, hreferences, h⟩ := bind_eq_ok.mp h
    obtain ⟨deriver, hderiver, -⟩ := bind_eq_ok.mp h
    rcases hp with hp | hp
    · have hmem : pathToJSON v1 p ∈ (OrderedSet.inOrder info.references).map (pathToJSON v1) :=
        List.mem_map_of_mem (OrderedSet.mem_inOrder.mpr hp)
      obtain ⟨q, -, hread⟩ := mem_readSet hreferences _ hmem
      exact readable_of_readPath dump hread
    · rw [hp] at hderiver
      exact readable_of_readNullable dump hderiver
  · intro h
    have hreferences : readSet (readPath dump v1)
        ((OrderedSet.inOrder info.references).map (pathToJSON v1))
          = .ok (OrderedSet.inOrder info.references).toFinset := by
      apply readSet_map
      intro p hp
      exact readPath_pathToJSON dump (h p (Or.inl (OrderedSet.mem_inOrder.mp hp)))
    rw [OrderedSet.toFinset_inOrder] at hreferences
    rw [hreferences, ok_bind, readNullable_paths dump fun p hp => h p (Or.inr hp), ok_bind]
    rfl

end

end UnkeyedValidPathInfo
end NixStore
