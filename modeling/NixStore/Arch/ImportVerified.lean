/-
  NixStore.Arch.ImportVerified

  What `importVerified` (`arch/import-path.cc`) guarantees about the paths it
  registers.

  The path of every record is compared with the one computed from the archive.
  The references of the record do not go into that computation, but they are
  registered.  A path that is registered with references is therefore not the
  path its contents and references give (`importVerified_sound_iff`).
-/

import NixStore.Store.AddFromDump
import NixStore.Store.ExportImport

namespace NixStore
namespace DiskStore

open Effect Wire

variable {store : StoreDirConfig} {now : Int}

/-- The references a path is computed from. -/
def referencesOf (p : StorePath) (references : Finset StorePath) : StoreReferences where
  others := references.erase p
  self := p ∈ references

variable (store) in
/-- A path is the one that its name, the tree that is there and the references
    registered for it give. -/
def Covered (s : DiskStore) (p : StorePath) : Prop :=
  ∃ f nar, ∃ references : Finset StorePath, s.tree p = some f ∧
    dumpPath NarNode.plain defaultPathFilter f = .ok nar ∧
    (∀ q, q ∈ references ↔ s.db.Refers (store.printStorePath p) (store.printStorePath q)) ∧
    store.makeFixedOutputPathFromCA p.name (.fixedOutput .nixArchive
      (store.hashString .sha256 nar).1 (referencesOf p references)) = .ok p

variable (store) in
/-- The path digest tells the text for a record from the text for the same
    record without references. -/
def TellsReferences (info : ValidPathInfo) : Prop :=
  let plain := store.sourceFingerprint info.path.name info.narHash { others := ∅, self := false }
  let full := store.sourceFingerprint info.path.name info.narHash
    (referencesOf info.path info.references)
  store.pathDigest plain = store.pathDigest full → plain = full

theorem referencesOf_empty (p : StorePath) :
    referencesOf p ∅ = { others := ∅, self := false } := by
  simp [referencesOf]

theorem tellsReferences_of_empty {info : ValidPathInfo} (h : info.references = ∅) :
    TellsReferences store info := by
  intro _
  show store.sourceFingerprint info.path.name info.narHash { others := ∅, self := false }
    = store.sourceFingerprint info.path.name info.narHash (referencesOf info.path info.references)
  rw [h, referencesOf_empty]

theorem references_empty_of_none {p : StorePath} {references : Finset StorePath}
    (h : referencesOf p references = { others := ∅, self := false }) : references = ∅ := by
  have hothers : references.erase p = ∅ := congrArg StoreReferences.others h
  have hself : decide (p ∈ references) = false := congrArg StoreReferences.self h
  rw [Finset.erase_eq_of_notMem (of_decide_eq_false hself)] at hothers
  exact hothers

/-- The check passes if the path is that of the archive without references. -/
theorem checkIntegrity_eq_ok {p : StorePath} {narHash : Hash} :
    checkIntegrity store p narHash = .ok () ↔
      store.makeFixedOutputPath p.name .nixArchive narHash { others := ∅, self := false } = .ok p := by
  unfold checkIntegrity
  show (store.makeFixedOutputPath p.name .nixArchive narHash { others := ∅, self := false } >>= _)
    = _ ↔ _
  rw [NixStore.bind_eq_ok]
  constructor
  · rintro ⟨expected, hexpected, hsame⟩
    rw [throwIf_eq_ok, not_not] at hsame
    rw [hexpected, hsame]
  · intro h
    exact ⟨p, h, throwIf_eq_ok.mpr (not_not.mpr rfl)⟩

/-- A path that was entered after the check is covered exactly if it has no
    references. -/
theorem Entered.covered_iff {s : DiskStore} {info : ValidPathInfo} {saved : Bytes}
    (h : Entered store now s info saved) (hsha : info.narHash.algo = .sha256)
    (hcheck : checkIntegrity store info.path info.narHash = .ok ())
    (htells : TellsReferences store info) :
    Covered store s info.path ↔ info.references = ∅ := by
  obtain ⟨f, nar, hrestore, hhash, htree⟩ := h.tree
  obtain ⟨f', heq, -, hdump, -⟩ := restorePath_eq_ok.mp hrestore
  cases heq
  rw [checkIntegrity_eq_ok] at hcheck
  have hrefers : ∀ q, q ∈ info.references ↔
      s.db.Refers (store.printStorePath info.path) (store.printStorePath q) := by
    intro q
    rw [h.refers]
    constructor
    · exact fun hq => ⟨q, hq, rfl⟩
    · rintro ⟨q', hq', htext⟩
      rw [store.printStorePath_inj htext]
      exact hq'
  constructor
  · rintro ⟨f', nar', references, htree', hdump', hrefs, hpath⟩
    rw [htree] at htree'
    cases htree'
    rw [hdump] at hdump'
    cases hdump'
    have hsame : references = info.references := Finset.ext fun q => (hrefs q).trans (hrefers q).symm
    rw [hhash, hsame] at hpath
    have htext := htells (store.pathDigest_eq_of_same_path hsha hsha hcheck hpath)
    exact references_empty_of_none (store.sourceFingerprint_without_references hsha hsha htext).1
  · intro hnone
    refine ⟨f, nar, info.references, htree, hdump, hrefers, ?_⟩
    rw [hhash, hnone, referencesOf_empty]
    exact hcheck

variable (store) in
/-- The calls of `addToStore` in a run of `importVerified`. -/
def verifiedSteps (now : Int) (source : Bytes) (s : DiskStore) : List ImportStep :=
  importSteps store (checkIntegrity store) now (source.length + 1) source s

/-- Every path that a run of `importVerified` registers is covered by its own
    hash exactly if no record that is entered has references. -/
theorem importVerified_sound_iff (now : Int) (source : Bytes) (s : DiskStore)
    (htells : ∀ step ∈ verifiedSteps store now source s, TellsReferences store step.info) :
    (∀ p, ¬ s.db.Valid (store.printStorePath p) →
      (final (importVerified store now source) s).db.Valid (store.printStorePath p) →
      Covered store (final (importVerified store now source) s) p) ↔
    ∀ step ∈ verifiedSteps store now source s,
      Registers store step.before step.info step.saved → step.info.references = ∅ := by
  have hran : Ran store now (checkIntegrity store) s (verifiedSteps store now source s)
      (final (importVerified store now source) s) := importLoop_ran _ _ _ _ _
  have hcovered : ∀ step ∈ verifiedSteps store now source s,
      Registers store step.before step.info step.saved →
      (Covered store (final (importVerified store now source) s) step.info.path ↔
        step.info.references = ∅) := by
    intro step hstep hregisters
    obtain ⟨hentered, -⟩ := hran.entered step hstep hregisters
    refine hentered.covered_iff ?_ (hran.checked step hstep) (htells step hstep)
    obtain ⟨f, nar, -, hhash, -⟩ := hentered.tree
    rw [← hhash]
    exact (store.hashString .sha256 nar).2
  constructor
  · intro h step hstep hregisters
    obtain ⟨hentered, hnew⟩ := hran.entered step hstep hregisters
    exact (hcovered step hstep hregisters).mp (h _ hnew hentered.valid)
  · intro h p hnew hvalid
    rcases (hran.valid _).mp hvalid with hold | ⟨step, hstep, hregisters, htext⟩
    · exact absurd hold hnew
    · rw [store.printStorePath_inj htext]
      exact (hcovered step hstep hregisters).mpr (h step hstep hregisters)

namespace Sample

/-- The path of the archive of an empty file. -/
def emptyPath : StorePath :=
  match measured.makeFixedOutputPath (ascii "a") .nixArchive
      (measured.hashString .sha256 emptyNar).1 { others := ∅, self := false } with
  | .ok p => p
  | .error _ => LocalStore.Sample.pathA

theorem emptyPath_eq : measured.makeFixedOutputPath (ascii "a") .nixArchive
    (measured.hashString .sha256 emptyNar).1 { others := ∅, self := false } = .ok emptyPath := by
  have hok : (measured.makeFixedOutputPath (ascii "a") .nixArchive
      (measured.hashString .sha256 emptyNar).1 { others := ∅, self := false }).isOk = true := by
    decide +kernel
  unfold emptyPath
  split
  · next p hp => rw [hp]
  · next e he =>
      rw [he] at hok
      cases hok

theorem emptyPath_name : emptyPath.separator = 0x2d ∧ emptyPath.name = ascii "a" := by
  have hpath : measured.makeFixedOutputPathFromCA (ascii "a") (.fixedOutput .nixArchive
      (measured.hashString .sha256 emptyNar).1 { others := ∅, self := false }) = .ok emptyPath :=
    emptyPath_eq
  exact measured.makeFixedOutputPathFromCA_eq_ok hpath

/-- A stream with one record for that path. -/
def streamOf (references : Finset StorePath) : Bytes :=
  writeNum 1 ++ (recordBytes measured emptyNar emptyPath references none ++ writeNum 0)

theorem emptyNar_archive : ∃ f : File, f.WithinLimits narMaxDepth ∧
    dumpPath NarNode.plain defaultPathFilter f = .ok emptyNar := by
  obtain ⟨f, -, hlimits, hdump, -⟩ := restorePath_eq_ok.mp restorePath_emptyNar
  exact ⟨f, hlimits, hdump⟩

/-- The only call for a stream whose record refers to its own path, if to
    anything. -/
theorem steps_streamOf {references : Finset StorePath} (hself : ∀ q ∈ references, q = emptyPath)
    (hsize : (recordBytes measured emptyNar emptyPath references none).length < 2 ^ 64) :
    verifiedSteps measured 1 (streamOf references) (fresh 10) =
        [{ before := fresh 10, info := recordInfo measured emptyNar emptyPath references none,
           saved := emptyNar }] ∧
      Registers measured (fresh 10) (recordInfo measured emptyNar emptyPath references none)
        emptyNar := by
  have hslash : emptyPath.separator ≠ 0x2f := by
    rw [emptyPath_name.1]
    decide
  have hrecordable : Recordable measured emptyNar emptyPath references none :=
    { archive := emptyNar_archive
      path_sep := hslash
      references_sep := fun q hq => by rw [hself q hq]; exact hslash
      deriver_sep := fun d hd => absurd hd (by simp)
      size := hsize }
  have hcheck : checkIntegrity measured emptyPath (measured.hashString .sha256 emptyNar).1
      = .ok () := by
    rw [checkIntegrity_eq_ok, emptyPath_name.2]
    exact emptyPath_eq
  have hrecord := parseRecord_recordBytes (checkIntegrity measured) hrecordable (writeNum 0)
  rw [hcheck, ok_bind] at hrecord
  have hnum : readNum (streamOf references) = .ok (1, _) := readNum_eq_ok.mpr ⟨by decide, rfl⟩
  have hnew : ¬ (fresh 10).db.Valid (measured.printStorePath emptyPath) := by
    rintro ⟨r, hr, -⟩
    exact absurd hr List.not_mem_nil
  refine ⟨?_, ?_⟩
  · rw [verifiedSteps, importSteps_record hnum hrecord]
    split
    · rw [importSteps_end]
    · rfl
  refine registers_record (Or.inr ⟨hnew, hnew⟩) (realName_ne_none ⟨hslash, ?_⟩) emptyNar_archive
    fun q hq => Or.inr (hself q hq)
  rw [emptyPath_name.1]
  decide

end Sample

/-- An empty file without references, into an empty store. -/
theorem importVerified_sound_empty :
    (∀ step ∈ verifiedSteps Sample.measured 1 (Sample.streamOf ∅) (fresh 10),
      TellsReferences Sample.measured step.info) ∧
    ((∀ p, ¬ (fresh 10).db.Valid (Sample.measured.printStorePath p) →
        (final (importVerified Sample.measured 1 (Sample.streamOf ∅)) (fresh 10)).db.Valid
          (Sample.measured.printStorePath p) →
        Covered Sample.measured
          (final (importVerified Sample.measured 1 (Sample.streamOf ∅)) (fresh 10)) p) ↔
      ∀ step ∈ verifiedSteps Sample.measured 1 (Sample.streamOf ∅) (fresh 10),
        Registers Sample.measured step.before step.info step.saved →
        step.info.references = ∅) := by
  have htells : ∀ step ∈ verifiedSteps Sample.measured 1 (Sample.streamOf ∅) (fresh 10),
      TellsReferences Sample.measured step.info := by
    have hsize : (recordBytes Sample.measured Sample.emptyNar Sample.emptyPath ∅ none).length
        < 2 ^ 64 := by decide +kernel
    obtain ⟨hsteps, -⟩ := Sample.steps_streamOf (fun q hq => absurd hq (Finset.notMem_empty q)) hsize
    intro step hstep
    rw [hsteps] at hstep
    rw [List.mem_singleton.mp hstep]
    exact tellsReferences_of_empty rfl
  exact ⟨htells, importVerified_sound_iff 1 _ _ htells⟩

/-- A record that refers to its own path is entered, and its path does not say
    so. -/
theorem importVerified_registers_uncovered :
    ¬ ∀ p, ¬ (fresh 10).db.Valid (Sample.measured.printStorePath p) →
      (final (importVerified Sample.measured 1 (Sample.streamOf {Sample.emptyPath}))
        (fresh 10)).db.Valid (Sample.measured.printStorePath p) →
      Covered Sample.measured
        (final (importVerified Sample.measured 1 (Sample.streamOf {Sample.emptyPath})) (fresh 10))
        p := by
  intro h
  have hsize : (recordBytes Sample.measured Sample.emptyNar Sample.emptyPath {Sample.emptyPath}
      none).length < 2 ^ 64 := by decide +kernel
  obtain ⟨hsteps, hregisters⟩ :=
    Sample.steps_streamOf (fun q hq => Finset.mem_singleton.mp hq) hsize
  have hran : Ran Sample.measured 1 (checkIntegrity Sample.measured) (fresh 10)
      (verifiedSteps Sample.measured 1 (Sample.streamOf {Sample.emptyPath}) (fresh 10))
      (final (importVerified Sample.measured 1 (Sample.streamOf {Sample.emptyPath})) (fresh 10)) :=
    importLoop_ran _ _ _ _ _
  rw [hsteps] at hran
  obtain ⟨hentered, hnew⟩ := hran.entered _ List.mem_cons_self hregisters
  have hcovered := h _ hnew hentered.valid
  have htells : TellsReferences Sample.measured
      (recordInfo Sample.measured Sample.emptyNar Sample.emptyPath {Sample.emptyPath} none) := by
    intro hdigest
    exact absurd hdigest (by decide +kernel)
  have hempty := (hentered.covered_iff (Sample.measured.hashString .sha256 Sample.emptyNar).2
    (hran.checked _ List.mem_cons_self) htells).mp hcovered
  exact absurd hempty (Finset.singleton_ne_empty _)

end DiskStore
end NixStore
