/-
  NixStore.Store.HashChecks

  The checks of an import that are written with `!=` on hashes: the NAR hash
  and the content address in `LocalStore::addToStore`, and the expected hash in
  `Store::addToStoreSlow`.

  The content address is computed with the algorithm of the one it is compared
  with, so its check accepts exactly if the texts coincide.  The other two take
  a hash of any algorithm from the caller, and accept the right bytes under the
  wrong algorithm.
-/

import NixStore.Store.AddSource

namespace NixStore

open HashObject DiskStore Store

/-- A check of one hash against another accepts exactly if they print alike,
    in whatever format. -/
def AcceptsByText (check : Except Error Unit) (h₁ h₂ : Hash) : Prop :=
  ∀ f, check = .ok () ↔ h₁.toText f true = h₂.toText f true

/-- A check written with `!=` goes by the texts unless the same digest comes
    under two algorithms. -/
theorem acceptsByText_iff {h₁ h₂ : Hash} {e : Error} :
    AcceptsByText (throwIf (¬ h₁.equals h₂) e) h₁ h₂ ↔ ¬ Relabelled h₁.object h₂.object := by
  have htexts : ∀ f, (throwIf (¬ h₁.equals h₂) e = .ok () ↔ h₁.toText f true = h₂.toText f true) ↔
      (h₁.object.equals h₂.object = true ↔
        h₁.object.toText f true = h₂.object.toText f true) := by
    intro f
    rw [throwIf_eq_ok, not_not, Hash.toText_object, Hash.toText_object]
    rfl
  unfold AcceptsByText
  simp only [htexts]
  rw [← agree_iff]
  constructor
  · intro h
    refine ⟨?_, fun f => ?_⟩
    · rw [h .sri, toText_inj_iff, order_eq_iff]
    · rw [order_eq_iff, toText_inj_iff]
  · intro h f
    rw [h.equals_order, h.order_text f]

variable {store : StoreDirConfig}

theorem checkNarHash_text_iff (info : ValidPathInfo) (nar : Bytes) :
    AcceptsByText (checkNarHash store info nar) (store.hashString .sha256 nar).1 info.narHash ↔
      ¬ Relabelled (store.hashString .sha256 nar).1.object info.narHash.object :=
  acceptsByText_iff

theorem checkExpectedHash_text_iff (expected hash : Hash) :
    AcceptsByText (checkExpectedHash (some expected) hash) expected hash ↔
      ¬ Relabelled expected.object hash.object := acceptsByText_iff

/-- The hash that `addToStore` computes for the content address of a tree. -/
def actualCaHash (store : StoreDirConfig) (path : StorePath) (specified : ContentAddress)
    (dump : Bytes) : Hash :=
  (store.hashString specified.hash.algo (hashModuloInput path.hashPart [dump])).1

theorem checkCa_text {info : ValidPathInfo} {specified : ContentAddress} {f : File} {dump : Bytes}
    (hca : info.ca = some specified)
    (hdump : dumpFile specified.method.getFileIngestionMethod f = .ok dump) :
    AcceptsByText (checkCa store info (some f)) specified.hash
      (actualCaHash store info.path specified dump) := by
  unfold checkCa
  rw [hca]
  simp only [pure_eq_ok, ok_bind, hdump]
  refine acceptsByText_iff.mpr fun hlabel => hlabel.2 ?_
  exact (store.hashString specified.hash.algo _).2.symm

/-- Equality, order and text of two hashes agree, and the checks go by the
    texts, exactly unless the same digest comes under two algorithms.  The
    order is a total one, and the content address is always compared under its
    own algorithm. -/
theorem hashComparisons_agree_iff (store : StoreDirConfig) :
    (∀ h₁ h₂ : HashObject, Agree h₁ h₂ ↔ ¬ Relabelled h₁ h₂) ∧
    (∀ info nar, AcceptsByText (checkNarHash store info nar) (store.hashString .sha256 nar).1
      info.narHash ↔ ¬ Relabelled (store.hashString .sha256 nar).1.object info.narHash.object) ∧
    (∀ expected hash : Hash, AcceptsByText (checkExpectedHash (some expected) hash) expected hash ↔
      ¬ Relabelled expected.object hash.object) ∧
    (∀ info specified f dump, info.ca = some specified →
      dumpFile specified.method.getFileIngestionMethod f = .ok dump →
      AcceptsByText (checkCa store info (some f)) specified.hash
        (actualCaHash store info.path specified dump)) ∧
    Std.TransCmp HashObject.order :=
  ⟨agree_iff, checkNarHash_text_iff, checkExpectedHash_text_iff,
    fun _ _ _ _ hca hdump => checkCa_text hca hdump, transCmp_order⟩

/-- The zero hashes of two algorithms are equal and are not equivalent, and no
    text of one is a text of the other. -/
theorem zeroHashes_disagree :
    (Hash.mk .sha256 (List.replicate 32 0) rfl).equals
        (Hash.mk .blake3 (List.replicate 32 0) rfl) = true ∧
      (Hash.mk .sha256 (List.replicate 32 0) rfl).object.order
        (Hash.mk .blake3 (List.replicate 32 0) rfl).object = .lt ∧
      (∀ f, (Hash.mk .sha256 (List.replicate 32 0) rfl).toText f true ≠
        (Hash.mk .blake3 (List.replicate 32 0) rfl).toText f true) ∧
      ¬ ∀ h₁ h₂ : HashObject, Agree h₁ h₂ := by
  refine ⟨by decide, by decide, fun f => ?_, fun h => ?_⟩
  · rw [← Hash.toText_object, ← Hash.toText_object, ne_eq, toText_inj_iff]
    exact fun heq => absurd heq.2 (by decide)
  · refine (agree_iff _ _).mp (h (Hash.mk .sha256 (List.replicate 32 0) rfl).object
      (Hash.mk .blake3 (List.replicate 32 0) rfl).object) ⟨rfl, by decide⟩

end NixStore
