/-
  NixStore.Store.ContentAddressed

  A content address survives the way through its three forms: the text, the
  content address and the content address with references.

  The references travel apart from the rest, with the self-reference folded
  into the set (`makeFromCA`) and out of it again
  (`contentAddressWithReferences`), which is exact unless the path is among the
  other references.
-/

import NixStore.Store.AddFromDump

namespace NixStore

namespace ContentAddressMethod

-- ============================================================================
-- Methods and their texts
-- ============================================================================

/-- `ContentAddressMethod::renderWithAlgo`. -/
def renderWithAlgo (method : ContentAddressMethod) (ha : HashAlgorithm) : Bytes :=
  renderPrefixModern method ++ printHashAlgo ha

/-- `ContentAddressMethod::parseWithAlgo`. -/
def parseWithAlgo (caMethod : Bytes) : Except Error (ContentAddressMethod × HashAlgorithm) := do
  let (method, hashAlgo, _) ← ContentAddress.parseContentAddressMethodPrefix (caMethod ++ ascii ":")
  pure (method, hashAlgo)

theorem parseWithAlgo_render (method : ContentAddressMethod) (ha : HashAlgorithm) :
    parseWithAlgo (method.renderWithAlgo ha) = .ok (method, ha) := by
  cases method <;> cases ha <;> rfl

end ContentAddressMethod

namespace ValidPathInfo

-- ============================================================================
-- Infos
-- ============================================================================

/-- What `makeFromCA` builds has the references and the content address. -/
theorem makeFromCA_fromCA {store : StoreDirConfig} {name : Bytes}
    {ca : ContentAddressWithReferences} {narHash : Hash} {p : StorePath}
    (hpath : store.makeFixedOutputPathFromCA name ca = .ok p) :
    ∃ info, makeFromCA store name ca narHash = .ok info ∧ info.path = p ∧ info.FromCA ca := by
  rw [makeFromCA, hpath, ok_bind]
  exact ⟨_, rfl, rfl, rfl, rfl⟩

/-- The info for a content address says that content address again, and the
    path passes as content-addressed. -/
structure Consistent (store : StoreDirConfig) (ca : ContentAddressWithReferences)
    (info : ValidPathInfo) : Prop where
  readBack : ∃ ca', info.ca = some ca' ∧ info.contentAddressWithReferences ca' = .ok ca
  isContentAddressed : info.isContentAddressed store = .ok true
  accepted : LocalStore.checkContentAddressed store info = .ok ()

theorem FromCA.consistent {store : StoreDirConfig} {name : Bytes}
    {ca : ContentAddressWithReferences} {info : ValidPathInfo} (h : info.FromCA ca)
    (hpath : store.makeFixedOutputPathFromCA name ca = .ok info.path)
    (hother : info.path ∉ ca.others) : Consistent store ca info where
  readBack := ⟨_, h.ca_eq, h.contentAddressWithReferences hother⟩
  isContentAddressed := h.isContentAddressed hother hpath
  accepted := h.checkContentAddressed hother hpath

end ValidPathInfo

/-- Content addresses and their methods are read back from their texts, and the
    info for a computed path says which content address it was computed from. -/
theorem contentAddress_consistent (store : StoreDirConfig) :
    (∀ ca : ContentAddress, ContentAddress.parse ca.render = .ok ca) ∧
    (∀ (method : ContentAddressMethod) (ha : HashAlgorithm),
      ContentAddressMethod.parseWithAlgo (method.renderWithAlgo ha) = .ok (method, ha)) ∧
    ∀ (name : Bytes) (ca : ContentAddressWithReferences) (narHash : Hash) (p : StorePath),
      store.makeFixedOutputPathFromCA name ca = .ok p → p ∉ ca.others →
      ∃ info, ValidPathInfo.makeFromCA store name ca narHash = .ok info ∧ info.path = p ∧
        ValidPathInfo.Consistent store ca info := by
  refine ⟨ContentAddress.parse_render, ContentAddressMethod.parseWithAlgo_render, ?_⟩
  intro name ca narHash p hpath hother
  obtain ⟨info, hmake, rfl, hfrom⟩ := ValidPathInfo.makeFromCA_fromCA hpath
  exact ⟨info, hmake, rfl, hfrom.consistent hpath hother⟩

/-- An archive with a reference to itself. -/
def selfReferring : ContentAddressWithReferences :=
  .fixedOutput .nixArchive
    (DiskStore.Sample.measured.hashString .sha256 DiskStore.Sample.emptyNar).1
    { others := ∅, self := true }

theorem contentAddress_consistent_selfReferring : ∃ info,
    ValidPathInfo.makeFromCA DiskStore.Sample.measured (ascii "a") selfReferring
      selfReferring.getHash = .ok info ∧
    ValidPathInfo.Consistent DiskStore.Sample.measured selfReferring info := by
  have hcomputed : (DiskStore.Sample.measured.makeFixedOutputPathFromCA (ascii "a")
      selfReferring).isOk = true := by decide +kernel
  cases hpath : DiskStore.Sample.measured.makeFixedOutputPathFromCA (ascii "a") selfReferring with
  | error e =>
      rw [hpath] at hcomputed
      cases hcomputed
  | ok p =>
      obtain ⟨info, hmake, -, hconsistent⟩ :=
        (contentAddress_consistent DiskStore.Sample.measured).2.2 (ascii "a") selfReferring
          selfReferring.getHash p hpath (Finset.notMem_empty p)
      exact ⟨info, hmake, hconsistent⟩

end NixStore
