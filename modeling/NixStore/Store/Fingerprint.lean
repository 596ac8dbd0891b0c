/-
  NixStore.Store.Fingerprint

  The texts that store paths are digests of (`makeStorePath` in
  `libstore/store-dir-config.cc`).

  A type with the references in it, a hash, the store directory and a name are
  joined by colons.  No part has a delimiter of its own, so the text is taken
  apart from both ends: a name has no colon, the hash has a fixed length, and a
  reference ends at the next colon after its separator.
-/

import NixStore.Store.ContentAddress

namespace NixStore

open OrderedSet

-- ============================================================================
-- Texts with a delimiter
-- ============================================================================

namespace Fingerprint

variable {c : UInt8}

/-- What follows a word: nothing, or a delimiter. -/
def Delimited (c : UInt8) (rest : Bytes) : Prop := rest = [] ∨ ∃ t, rest = c :: t

/-- A word ends where the first delimiter is. -/
theorem word_inj {a b rest rest' : Bytes} (ha : c ∉ a) (hb : c ∉ b) (hrest : Delimited c rest)
    (hrest' : Delimited c rest') (h : a ++ rest = b ++ rest') : a = b ∧ rest = rest' := by
  induction a generalizing b with
  | nil =>
      cases b with
      | nil => exact ⟨rfl, h⟩
      | cons y b =>
          rcases hrest with rfl | ⟨t, rfl⟩
          · cases h
          · cases h
            exact absurd List.mem_cons_self hb
  | cons x a ih =>
      cases b with
      | nil =>
          rcases hrest' with rfl | ⟨t, rfl⟩
          · cases h
          · cases h
            exact absurd List.mem_cons_self ha
      | cons y b =>
          obtain ⟨rfl, htail⟩ := List.cons.inj h
          obtain ⟨rfl, hsame⟩ := ih (fun hm => ha (List.mem_cons_of_mem _ hm))
            (fun hm => hb (List.mem_cons_of_mem _ hm)) htail
          exact ⟨rfl, hsame⟩

/-- The last word starts behind the last delimiter. -/
theorem lastWord_inj {a b front front' : Bytes} (ha : c ∉ a) (hb : c ∉ b)
    (h : front ++ c :: a = front' ++ c :: b) : front = front' ∧ a = b := by
  have hrev := congrArg List.reverse h
  simp only [List.reverse_append, List.reverse_cons, List.append_assoc, List.singleton_append]
    at hrev
  obtain ⟨hword, hfront⟩ := word_inj (c := c) (fun hm => ha (List.mem_reverse.mp hm))
    (fun hm => hb (List.mem_reverse.mp hm)) (.inr ⟨_, rfl⟩) (.inr ⟨_, rfl⟩) hrev
  exact ⟨List.reverse_injective (List.cons.inj hfront).2, List.reverse_injective hword⟩

end Fingerprint

namespace StoreDirConfig

open Fingerprint

variable (store : StoreDirConfig)

-- ============================================================================
-- References
-- ============================================================================

/-- The references in a type. -/
def referencesText (l : List StorePath) : Bytes := l.flatMap fun i => 0x3a :: store.printStorePath i

/-- The marker of a reference to the path itself. -/
def selfText (self : Bool) : Bytes := if self then ascii ":self" else []

theorem makeType_eq (type : Bytes) (references : StoreReferences) :
    store.makeType type references = type ++ (store.referencesText (inOrder references.others) ++
      selfText references.self) := by
  rw [makeType, referencesText, selfText, List.append_assoc]

theorem delimited_references (l : List StorePath) (self : Bool) :
    Delimited 0x3a (store.referencesText l ++ selfText self) := by
  cases l with
  | nil =>
      cases self with
      | false => exact .inl rfl
      | true => exact .inr ⟨ascii "self", rfl⟩
  | cons p l => exact .inr ⟨_, rfl⟩

/-- A reference is read up to the colon behind its name. -/
theorem reference_inj {p q : StorePath} {rest rest' : Bytes} (hrest : Delimited 0x3a rest)
    (hrest' : Delimited 0x3a rest')
    (h : store.printStorePath p ++ rest = store.printStorePath q ++ rest') :
    p = q ∧ rest = rest' := by
  have hbase : p.baseName ++ rest = q.baseName ++ rest' := by
    apply @List.append_cancel_left _ (store.text ++ ascii "/")
    rw [← List.append_assoc, ← List.append_assoc]
    exact h
  rw [p.baseName_eq, q.baseName_eq, List.append_assoc, List.append_assoc] at hbase
  obtain ⟨hhash, htail⟩ := List.append_inj hbase (by rw [p.length_hashPart, q.length_hashPart])
  obtain ⟨hsep, hname⟩ := List.cons.inj htail
  obtain ⟨hname, hsame⟩ := word_inj (c := 0x3a) (p.not_mem_name (by decide))
    (q.not_mem_name (by decide)) hrest hrest' hname
  refine ⟨StorePath.ext' ?_, hsame⟩
  rw [p.baseName_eq, q.baseName_eq, hhash, hsep, hname]

theorem text_eq_slash : ∃ t, store.text = 0x2f :: t := by
  unfold StoreDir.text renderPath
  split
  · exact ⟨[], rfl⟩
  · next hne =>
      obtain ⟨c, cs, hcomps⟩ := List.exists_cons_of_ne_nil hne
      rw [hcomps]
      exact ⟨_, rfl⟩

/-- A printed reference is not `self`. -/
theorem reference_ne_self {p : StorePath} {rest : Bytes} (self : Bool) :
    0x3a :: (store.printStorePath p ++ rest) ≠ selfText self := by
  obtain ⟨t, ht⟩ := store.text_eq_slash
  intro h
  rw [StoreDir.printStorePath, ht] at h
  cases self <;> cases h

/-- The references in a type are read off one after another. -/
theorem references_inj {l l' : List StorePath} {self self' : Bool}
    (h : store.referencesText l ++ selfText self = store.referencesText l' ++ selfText self') :
    l = l' ∧ self = self' := by
  induction l generalizing l' with
  | nil =>
      cases l' with
      | nil =>
          refine ⟨rfl, ?_⟩
          cases self <;> cases self' <;> first
            | rfl
            | cases h
      | cons q l' =>
          simp only [referencesText, List.flatMap_cons, List.cons_append, List.append_assoc] at h
          exact absurd h.symm (store.reference_ne_self self)
  | cons p l ih =>
      cases l' with
      | nil =>
          simp only [referencesText, List.flatMap_cons, List.cons_append, List.append_assoc] at h
          exact absurd h (store.reference_ne_self self')
      | cons q l' =>
          simp only [referencesText, List.flatMap_cons, List.cons_append, List.append_assoc] at h
          obtain ⟨rfl, hrest⟩ := store.reference_inj (store.delimited_references l self)
            (store.delimited_references l' self') (List.cons.inj h).2
          obtain ⟨rfl, rfl⟩ := ih hrest
          exact ⟨rfl, rfl⟩

theorem makeType_inj {type : Bytes} {references references' : StoreReferences}
    (h : store.makeType type references = store.makeType type references') :
    references = references' := by
  rw [makeType_eq, makeType_eq] at h
  obtain ⟨hothers, hself⟩ := store.references_inj (List.append_cancel_left h)
  obtain ⟨others, self⟩ := references
  obtain ⟨others', self'⟩ := references'
  have hset := congrArg List.toFinset hothers
  rw [toFinset_inOrder, toFinset_inOrder] at hset
  rw [StoreReferences.mk.injEq]
  exact ⟨hset, hself⟩

-- ============================================================================
-- Fingerprints
-- ============================================================================

/-- The type, the hash and the name are read off a fingerprint. -/
theorem fingerprint_inj {type type' name name' : Bytes} {hash hash' : Hash}
    (hsha : hash.algo = .sha256) (hsha' : hash'.algo = .sha256) (hname : 0x3a ∉ name)
    (hname' : 0x3a ∉ name')
    (h : store.fingerprint type (hash.toText .base16 true) name
      = store.fingerprint type' (hash'.toText .base16 true) name') :
    type = type' ∧ hash = hash' ∧ name = name' := by
  have hsplit : ∀ type hash name : Bytes, store.fingerprint type hash name
      = (type ++ 0x3a :: hash ++ 0x3a :: store.text) ++ 0x3a :: name := by
    intro type hash name
    simp only [fingerprint, List.append_assoc, List.cons_append, ascii]
    rfl
  rw [hsplit, hsplit] at h
  obtain ⟨hfront, hsame⟩ := lastWord_inj hname hname' h
  have hcut := List.append_cancel_right hfront
  obtain ⟨htype, htext⟩ := List.append_inj' hcut (by
    simp only [List.length_cons, length_toText_base16 hsha, length_toText_base16 hsha'])
  have hparse := congrArg Hash.parseAnyPrefixed (List.cons.inj htext).2
  rw [Hash.parseAnyPrefixed_base16, Hash.parseAnyPrefixed_base16] at hparse
  exact ⟨htype, Except.ok.inj hparse, hsame⟩

/-- The text that is hashed for a content address that is neither text nor an
    archive with a SHA-256 (`payload` in `makeFixedOutputPath`). -/
def fixedPayload (method : FileIngestionMethod) (hash : Hash) : Bytes :=
  ascii "fixed:out:" ++ makeFileIngestionPrefix method ++ hash.toText .base16 true ++ ascii ":"

/-- No algorithm's name starts as the prefix of archives does. -/
theorem head_toText_ne (hash : Hash) : (hash.toText .base16 true).head? ≠ some 0x72 := by
  have hhead : (hash.toText .base16 true).head? = (printHashAlgo hash.algo).head? := by
    rw [Hash.toText]
    cases hash.algo <;> rfl
  rw [hhead]
  cases hash.algo <;> decide

theorem fixedPayload_inj {method method' : FileIngestionMethod} {hash hash' : Hash}
    (h : fixedPayload method hash = fixedPayload method' hash') : method = method' ∧ hash = hash' := by
  simp only [fixedPayload, List.append_assoc] at h
  have htext := List.append_cancel_left h
  rw [← List.append_assoc, ← List.append_assoc] at htext
  have hbody := List.append_cancel_right htext
  have hmethod : method = method' := by
    have hhead := congrArg List.head? hbody
    cases method with
    | flat =>
        cases method' with
        | flat => rfl
        | nixArchive => exact absurd hhead (head_toText_ne hash)
    | nixArchive =>
        cases method' with
        | flat => exact absurd hhead.symm (head_toText_ne hash')
        | nixArchive => rfl
  subst hmethod
  have hparse := congrArg Hash.parseAnyPrefixed (List.append_cancel_left hbody)
  rw [Hash.parseAnyPrefixed_base16, Hash.parseAnyPrefixed_base16] at hparse
  exact ⟨rfl, Except.ok.inj hparse⟩

/-- The text in the last call of `hashString` in `makeFixedOutputPathFromCA`. -/
def caFingerprint (name : Bytes) : ContentAddressWithReferences → Bytes
  | .text hash references =>
      store.fingerprint (store.makeType (ascii "text") { others := references, self := false })
        (hash.toText .base16 true) name
  | .fixedOutput method hash references =>
      if hash.algo = .sha256 ∧ method = .nixArchive then store.sourceFingerprint name hash references
      else store.fingerprint (ascii "output:out")
        ((store.hashString .sha256 (fixedPayload method hash)).1.toText .base16 true) name

/-- The texts in the other calls. -/
def caPayload : ContentAddressWithReferences → Option Bytes
  | .text _ _ => none
  | .fixedOutput method hash _ =>
      if hash.algo = .sha256 ∧ method = .nixArchive then none else some (fixedPayload method hash)

/-- A computed path has the digest of that text as its hash part. -/
theorem makeFixedOutputPathFromCA_fingerprint {name : Bytes} {ca : ContentAddressWithReferences}
    {p : StorePath} (h : store.makeFixedOutputPathFromCA name ca = .ok p) :
    p.baseName = BaseNix32.encode (store.pathDigest (store.caFingerprint name ca)) ++ ascii "-" ++
      name := by
  cases ca with
  | text hash references =>
      obtain ⟨_, -, hpath⟩ := bind_eq_ok.mp h
      exact StorePath.baseName_of_ofBaseName hpath
  | fixedOutput method hash references =>
      simp only [makeFixedOutputPathFromCA, makeFixedOutputPath] at h
      rw [caFingerprint]
      split at h
      · next hsource =>
          rw [if_pos hsource]
          exact StorePath.baseName_of_ofBaseName h
      · next hother =>
          rw [if_neg hother]
          split at h
          · cases h
          · exact StorePath.baseName_of_ofBaseName h

theorem colon_not_mem_of_ok {name : Bytes} {ca : ContentAddressWithReferences} {p : StorePath}
    (h : store.makeFixedOutputPathFromCA name ca = .ok p) : 0x3a ∉ name := by
  rw [← (store.makeFixedOutputPathFromCA_eq_ok h).2]
  exact p.not_mem_name (by decide)

/-- Without references there is nothing else in a content address. -/
theorem references_of_ok {name : Bytes} {method : FileIngestionMethod} {hash : Hash}
    {references : StoreReferences} {p : StorePath}
    (h : store.makeFixedOutputPath name method hash references = .ok p)
    (hother : ¬ (hash.algo = .sha256 ∧ method = .nixArchive)) :
    references = { others := ∅, self := false } := by
  rw [makeFixedOutputPath, if_neg hother] at h
  split at h
  · cases h
  · next hnone =>
      obtain ⟨others, self⟩ := references
      rw [not_or, not_not, Bool.not_eq_true] at hnone
      rw [StoreReferences.mk.injEq]
      exact ⟨hnone.2, hnone.1⟩

/-- The first letter of a fingerprint tells archives, texts and the rest
    apart. -/
theorem head_caFingerprint (name : Bytes) (ca : ContentAddressWithReferences) :
    (store.caFingerprint name ca).head? = match ca with
      | .text _ _ => some 0x74
      | .fixedOutput method hash _ =>
          if hash.algo = .sha256 ∧ method = .nixArchive then some 0x73 else some 0x6f := by
  cases ca with
  | text hash references => rfl
  | fixedOutput method hash references =>
      rw [caFingerprint]
      dsimp only
      split
      · rfl
      · rfl

/-- Two content addresses with the same fingerprint, under names for which
    there are paths, are the same, unless the inner digests collide. -/
theorem caFingerprint_injective {name name' : Bytes} {ca ca' : ContentAddressWithReferences}
    {p p' : StorePath} (h : store.makeFixedOutputPathFromCA name ca = .ok p)
    (h' : store.makeFixedOutputPathFromCA name' ca' = .ok p')
    (hinj : ∀ s ∈ caPayload ca, ∀ t ∈ caPayload ca',
      (store.hashString .sha256 s).1 = (store.hashString .sha256 t).1 → s = t)
    (hsame : store.caFingerprint name ca = store.caFingerprint name' ca') :
    name = name' ∧ ca = ca' := by
  have hname := store.colon_not_mem_of_ok h
  have hname' := store.colon_not_mem_of_ok h'
  have hhead := congrArg List.head? hsame
  rw [head_caFingerprint, head_caFingerprint] at hhead
  cases ca with
  | text hash references =>
      cases ca' with
      | text hash' references' =>
          obtain ⟨_, hsha, -⟩ := bind_eq_ok.mp h
          obtain ⟨_, hsha', -⟩ := bind_eq_ok.mp h'
          rw [throwIf_eq_ok, not_not] at hsha hsha'
          obtain ⟨htype, rfl, rfl⟩ := store.fingerprint_inj hsha hsha' hname hname' hsame
          cases store.makeType_inj htype
          exact ⟨rfl, rfl⟩
      | fixedOutput method' hash' references' =>
          dsimp only at hhead
          split at hhead <;> cases hhead
  | fixedOutput method hash references =>
      cases ca' with
      | text hash' references' =>
          dsimp only at hhead
          split at hhead <;> cases hhead
      | fixedOutput method' hash' references' =>
          dsimp only at hhead
          by_cases hsource : hash.algo = .sha256 ∧ method = .nixArchive
          · by_cases hsource' : hash'.algo = .sha256 ∧ method' = .nixArchive
            · rw [caFingerprint, caFingerprint, if_pos hsource, if_pos hsource'] at hsame
              obtain ⟨htype, rfl, rfl⟩ := store.fingerprint_inj hsource.1 hsource'.1 hname hname' hsame
              rw [store.makeType_inj htype, hsource.2, hsource'.2]
              exact ⟨rfl, rfl⟩
            · rw [if_pos hsource, if_neg hsource'] at hhead
              cases hhead
          · by_cases hsource' : hash'.algo = .sha256 ∧ method' = .nixArchive
            · rw [if_neg hsource, if_pos hsource'] at hhead
              cases hhead
            · rw [caFingerprint, caFingerprint, if_neg hsource, if_neg hsource'] at hsame
              obtain ⟨-, hdigest, rfl⟩ := store.fingerprint_inj (store.hashString .sha256 _).2
                (store.hashString .sha256 _).2 hname hname' hsame
              have hpayload := hinj _ (by rw [caPayload, if_neg hsource]; rfl) _
                (by rw [caPayload, if_neg hsource']; rfl) hdigest
              obtain ⟨rfl, rfl⟩ := fixedPayload_inj hpayload
              rw [store.references_of_ok h hsource, store.references_of_ok h' hsource']
              exact ⟨rfl, rfl⟩

/-- Different pairs of a name and a content address for which there are paths
    have different fingerprints, and these are what the paths are digests of. -/
theorem makeFixedOutputPathFromCA_fingerprints_apart (name name' : Bytes)
    (ca ca' : ContentAddressWithReferences) (p p' : StorePath)
    (h : store.makeFixedOutputPathFromCA name ca = .ok p)
    (h' : store.makeFixedOutputPathFromCA name' ca' = .ok p')
    (hinj : ∀ s ∈ caPayload ca, ∀ t ∈ caPayload ca',
      (store.hashString .sha256 s).1 = (store.hashString .sha256 t).1 → s = t)
    (hne : (name, ca) ≠ (name', ca')) :
    p.baseName = BaseNix32.encode (store.pathDigest (store.caFingerprint name ca)) ++ ascii "-" ++
        name ∧
      p'.baseName = BaseNix32.encode (store.pathDigest (store.caFingerprint name' ca')) ++
        ascii "-" ++ name' ∧
      store.caFingerprint name ca ≠ store.caFingerprint name' ca' := by
  refine ⟨store.makeFixedOutputPathFromCA_fingerprint h,
    store.makeFixedOutputPathFromCA_fingerprint h', fun hsame => hne ?_⟩
  obtain ⟨hname, hca⟩ := store.caFingerprint_injective h h' hinj hsame
  rw [hname, hca]

namespace FingerprintSample

/-- SHA-256 of the texts that are hashed here. -/
def sha256 : List (Bytes × Nat) := [
  (ascii "fixed:out:sha256:2d711642b726b04401627ca9fbac32f5c8530fb1903cc4db02258717921a4881:",
    0x5d565b607ba6dc8b3710118bb9523718f8286cbae30312542409ca094f4b0c45),
  (ascii ("output:out:sha256:5d565b607ba6dc8b3710118bb9523718f8286cbae30312542409ca094f4b0c45" ++
    ":/nix/store:a"), 0x9862b25b2692c6824af1b10f61493d190bbf479e04ea8865c8ac75f344df3d04),
  (ascii "fixed:out:r:sha1:11f6ad8ec52a2984abaafd7c3b516503785c2072:",
    0x31224891b19ec476e42c6becc2d3866050bb20c6b466b4ed08ed45d13fd9b7b7),
  (ascii ("output:out:sha256:31224891b19ec476e42c6becc2d3866050bb20c6b466b4ed08ed45d13fd9b7b7" ++
    ":/nix/store:a"), 0xadaf0275346efb99fba6e3de8f130372d1c5e4c1522b9987ee2ff39cdfbdf130)]

/-- A number as big-endian bytes. -/
def bigEndian (size n : Nat) : Bytes :=
  (List.range size).map fun i => UInt8.ofNat (n / 256 ^ (size - 1 - i))

theorem length_bigEndian (size n : Nat) : (bigEndian size n).length = size := by
  rw [bigEndian, List.length_map, List.length_range]

/-- The usual store directory with these digests. -/
def hashed : StoreDirConfig where
  comps := [ascii "nix", ascii "store"]
  normal := StoreDir.normal_nixStore
  hashString algo b :=
    ⟨⟨algo, bigEndian _ ((sha256.lookup b).getD 0), length_bigEndian _ _⟩, rfl⟩

/-- The SHA-256 of `x`, as the hash of a file. -/
def flat : ContentAddressWithReferences :=
  .fixedOutput .flat ⟨.sha256, bigEndian 32
    0x2d711642b726b04401627ca9fbac32f5c8530fb1903cc4db02258717921a4881, length_bigEndian _ _⟩
    { others := ∅, self := false }

/-- The SHA-1 of `x`, as the hash of an archive. -/
def archive : ContentAddressWithReferences :=
  .fixedOutput .nixArchive ⟨.sha1, bigEndian 20 0x11f6ad8ec52a2984abaafd7c3b516503785c2072,
    length_bigEndian _ _⟩ { others := ∅, self := false }

/-- There is a path for each. -/
theorem path_of {ca : ContentAddressWithReferences}
    (h : (hashed.makeFixedOutputPathFromCA (ascii "a") ca).isOk = true) :
    ∃ p, hashed.makeFixedOutputPathFromCA (ascii "a") ca = .ok p := by
  cases hmake : hashed.makeFixedOutputPathFromCA (ascii "a") ca with
  | ok p => exact ⟨p, rfl⟩
  | error e =>
      rw [hmake] at h
      cases h

end FingerprintSample

/-- The same name with two hashes that go through an inner digest. -/
theorem makeFixedOutputPathFromCA_fingerprints_apart_fixed :
    FingerprintSample.hashed.caFingerprint (ascii "a") FingerprintSample.flat
      ≠ FingerprintSample.hashed.caFingerprint (ascii "a") FingerprintSample.archive := by
  obtain ⟨p, hp⟩ : ∃ p, _ = Except.ok p :=
    FingerprintSample.path_of (show (FingerprintSample.hashed.makeFixedOutputPathFromCA (ascii "a")
      FingerprintSample.flat).isOk = true by decide +kernel)
  obtain ⟨q, hq⟩ : ∃ q, _ = Except.ok q :=
    FingerprintSample.path_of (show (FingerprintSample.hashed.makeFixedOutputPathFromCA (ascii "a")
      FingerprintSample.archive).isOk = true by decide +kernel)
  refine (makeFixedOutputPathFromCA_fingerprints_apart FingerprintSample.hashed _ _ _ _ p q hp hq
    ?_ ?_).2.2
  · decide +kernel
  · decide

end StoreDirConfig
end NixStore
