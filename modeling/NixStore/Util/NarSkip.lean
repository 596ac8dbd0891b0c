/-
  NixStore.Util.NarSkip

  The skipping parser against the reading parser.

  `parseContents` has two ways past a file body.  A sink that reads contents
  has the body drained and the padding compared with zero; a sink with
  `skipContents` has the size rounded up to a multiple of eight and that many
  bytes skipped, whatever they are.  The grammar is otherwise the same, so
  the two agree on a source exactly when the archive it starts with, if any,
  either passes both body tests or fails both (`skip_agrees_iff`).
-/

import NixStore.Util.NarRoundTrip

namespace NixStore
namespace NarNode

section Skip

variable {σ : Type} (sink : FileSystemObjectSink σ) (cfg : ArchiveSettings)

/-- `parseDump` into `sink` succeeds on `source` and takes its first `k`
    bytes. -/
def Consumes (st : σ) (source : Bytes) (k : Nat) : Prop :=
  ∃ rest st', parseDump cfg sink source st = .ok (rest, st') ∧ source.length = k + rest.length

/-- `x` is the legal node of the archive in the first `k` bytes of `source`,
    and the case hack finds a name on disk for each of its entries. -/
def Carries (source : Bytes) (k : Nat) (x : NarNode) : Prop :=
  x.Legal narMaxDepth ∧ feed nullFileSystemObjectSink cfg [] x () = .ok () ∧
    k ≤ source.length ∧ source.take k = writeString narVersionMagic1 ++ x.encode

/-- Started in `st`, the sink itself never throws: whatever can be fed to the
    sink that ignores everything can be fed to this one. -/
def Obliging (st : σ) : Prop :=
  ∀ x : NarNode, x.Legal narMaxDepth → feed nullFileSystemObjectSink cfg [] x () = .ok () →
    ∃ st', feed sink cfg [] x st = .ok st'

/-! ## Feeding the null sink -/

mutual

/-- Only the case hack can fail when a node is fed to the null sink, so what
    any sink takes the null sink takes. -/
theorem feed_null : ∀ {x : NarNode} {path : NodePath} (path' : NodePath) {st st' : σ},
    feed sink cfg path x st = .ok st' →
    feed nullFileSystemObjectSink cfg path' x () = .ok ()
  | .regular e c p, _, _, _, _, _ => by
      cases e <;> rfl
  | .symlink t, _, _, _, _, _ => rfl
  | .directory es, path, path', st, st', h => by
      simp only [feed, bind_eq_ok] at h
      obtain ⟨st₁, -, h⟩ := h
      exact feedEntries_null path' h

theorem feedEntries_null : ∀ {es : List (Bytes × NarNode)} {path : NodePath} (path' : NodePath)
    {names : List (Bytes × Nat)} {st st' : σ},
    feedEntries sink cfg path names es st = .ok st' →
    feedEntries nullFileSystemObjectSink cfg path' names es () = .ok ()
  | [], _, _, _, _, _, _ => rfl
  | (name, x) :: rest, path, path', names, st, st', h => by
      simp only [feedEntries, bind_eq_ok, Prod.exists] at h
      obtain ⟨onDisk, names₁, hentry, st₁, hx, hrest⟩ := h
      simp only [feedEntries, hentry, ok_bind]
      rw [feed_null (path' ++ [onDisk]) hx, ok_bind]
      exact feedEntries_null path' hrest

end

theorem obliging_null : Obliging nullFileSystemObjectSink cfg () :=
  fun _ _ h => ⟨(), h⟩

/-- A `MemorySink` that starts empty takes every legal node. -/
theorem obliging_memorySink : Obliging memorySink plain none :=
  fun _ hlegal _ => ⟨_, feed_builds memorySink_builds hlegal⟩

/-! ## Agreement -/

variable {sink cfg}

theorem consumes_iff {st : σ} (h : Obliging sink cfg st) {source : Bytes} {k : Nat} :
    Consumes sink cfg st source k ↔
      ∃ x, Carries cfg source k x ∧ x.AllFiles (BodyOk sink.skipContents) := by
  constructor
  · rintro ⟨rest, st', hparse, hlen⟩
    obtain ⟨x, hlegal, hsource, hbody, hfeed⟩ := (parseDump_eq_ok sink cfg).mp hparse
    rw [← List.append_assoc] at hsource
    have hk : (writeString narVersionMagic1 ++ x.encode).length = k := by
      rw [hsource, List.length_append] at hlen
      omega
    refine ⟨x, ⟨hlegal, feed_null sink cfg [] hfeed, by omega, ?_⟩, hbody⟩
    rw [hsource, ← hk, List.take_left]
  · rintro ⟨x, ⟨hlegal, hnames, hk, htake⟩, hbody⟩
    obtain ⟨st', hfeed⟩ := h x hlegal hnames
    refine ⟨source.drop k, st', ?_, by rw [List.length_drop]; omega⟩
    rw [parseDump_eq_ok]
    refine ⟨x, hlegal, ?_, hbody, hfeed⟩
    rw [← List.append_assoc, ← htake, List.take_append_drop]

/-- A source starts with the archive of one node only. -/
theorem Carries.unique {source : Bytes} {k l : Nat} {x y : NarNode}
    (hx : Carries cfg source k x) (hy : Carries cfg source l y) : x = y := by
  obtain ⟨hlx, -, -, hx⟩ := hx
  obtain ⟨hly, -, -, hy⟩ := hy
  have hsource : writeString narVersionMagic1 ++ (x.encode ++ source.drop k)
      = writeString narVersionMagic1 ++ (y.encode ++ source.drop l) := by
    rw [← List.append_assoc, ← hx, List.take_append_drop, ← List.append_assoc, ← hy,
      List.take_append_drop]
  rw [List.append_cancel_left_eq] at hsource
  exact (encode_append_inj hlx.framed hly.framed hsource).1

theorem consumes_skipping {source : Bytes} {k : Nat} :
    Consumes nullFileSystemObjectSink cfg () source k ↔
      ∃ x, Carries cfg source k x ∧ x.Alignable :=
  consumes_iff (obliging_null cfg)

theorem consumes_reading {st : σ} (hread : sink.skipContents = false) (h : Obliging sink cfg st)
    {source : Bytes} {k : Nat} :
    Consumes sink cfg st source k ↔ ∃ x, Carries cfg source k x ∧ x.PadsZero := by
  rw [consumes_iff h, hread]
  rfl

/-- The skipping parser and a reading parser take the same number of bytes
    off a source, or both refuse it, exactly when the archive the source
    starts with, if it does, has zero padding just if its file sizes can be
    rounded up. -/
theorem skip_agrees_iff {st : σ} (hread : sink.skipContents = false)
    (h : Obliging sink cfg st) (source : Bytes) :
    (∀ k, Consumes nullFileSystemObjectSink cfg () source k ↔ Consumes sink cfg st source k) ↔
      ∀ k x, Carries cfg source k x → (x.PadsZero ↔ x.Alignable) := by
  simp only [consumes_skipping, consumes_reading hread h]
  constructor
  · intro hagree k x hx
    -- the node is determined by the bytes, so each side is about `x`
    have hself (P : NarNode → Prop) : (∃ y, Carries cfg source k y ∧ P y) ↔ P x := by
      constructor
      · rintro ⟨y, hy, hP⟩
        rwa [hx.unique hy]
      · exact fun hP => ⟨x, hx, hP⟩
    have hk := hagree k
    rw [hself, hself] at hk
    exact hk.symm
  · intro hcond k
    constructor
    · rintro ⟨x, hx, halign⟩
      exact ⟨x, hx, (hcond k x hx).mpr halign⟩
    · rintro ⟨x, hx, hzero⟩
      exact ⟨x, hx, (hcond k x hx).mp hzero⟩

end Skip

/-- A directory with a file of three bytes, padded with five zeros, and a link. -/
def paddedNode : NarNode :=
  .directory [(ascii "a", .regular true [1, 2, 3] [0, 0, 0, 0, 0]), (ascii "b", .symlink (ascii "a"))]

/-- The archive of `paddedNode`, and something behind it. -/
def paddedSource : Bytes := writeString narVersionMagic1 ++ paddedNode.encode ++ [7]

theorem carries_paddedSource :
    Carries plain paddedSource (paddedSource.length - 1) paddedNode := by
  refine ⟨?_, rfl, Nat.sub_le _ _, by decide +kernel⟩
  simp only [paddedNode, Legal, LegalEntries]
  decide

/-- Both parsers take the archive and leave what is behind it. -/
theorem skip_agrees_memorySink :
    memorySink.skipContents = false ∧ Obliging memorySink plain none ∧
      Consumes memorySink plain none paddedSource (paddedSource.length - 1) ∧
      ∀ k, Consumes nullFileSystemObjectSink plain () paddedSource k ↔
        Consumes memorySink plain none paddedSource k := by
  have hzero : paddedNode.PadsZero := by
    simp only [paddedNode, PadsZero, AllFiles, AllFilesEntries]
    decide
  have halign : paddedNode.Alignable := by
    simp only [paddedNode, Alignable, AllFiles, AllFilesEntries]
    decide
  refine ⟨rfl, obliging_memorySink, ?_, ?_⟩
  · exact (consumes_reading rfl obliging_memorySink).mpr ⟨_, carries_paddedSource, hzero⟩
  · refine (skip_agrees_iff rfl obliging_memorySink paddedSource).mpr fun k x hx => ?_
    rw [← carries_paddedSource.unique hx]
    exact iff_of_true hzero halign

/-- A one-byte file whose first padding byte is set. -/
def dirtyNode : NarNode := .regular false [1] [1, 0, 0, 0, 0, 0, 0]

/-- The archive of `dirtyNode`. -/
def dirtyNar : Bytes := writeString narVersionMagic1 ++ dirtyNode.encode

theorem carries_dirtyNar : Carries plain dirtyNar dirtyNar.length dirtyNode :=
  ⟨⟨by decide, by decide, by decide⟩, rfl, Nat.le_refl _, List.take_length⟩

/-- The skipping parser accepts padding that the reading parser refuses. -/
theorem skip_disagrees_dirtyNar :
    ¬ ∀ source k, Consumes nullFileSystemObjectSink plain () source k ↔
      Consumes memorySink plain none source k := by
  intro h
  have hskip : Consumes nullFileSystemObjectSink plain () dirtyNar dirtyNar.length :=
    consumes_skipping.mpr ⟨dirtyNode, carries_dirtyNar, by show [1].length ≤ 2 ^ 64 - 8; decide⟩
  have hread := (h dirtyNar dirtyNar.length).mp hskip
  obtain ⟨x, hx, hzero⟩ := (consumes_reading rfl obliging_memorySink).mp hread
  rw [← carries_dirtyNar.unique hx] at hzero
  exact absurd hzero (by show ¬ [1, 0, 0, 0, 0, 0, 0] = writePadding 1; decide)

end NarNode
end NixStore
