/-
  NixStore.Arch.ExportPath

  What `export-path` ships and `import-path` receives (`arch/export-path.cc`,
  `arch/import-path.cc`).

  `export-path` opens the store anew, so nothing is cached.  The paths that are
  shipped were made by `addToStoreFromDump`, from the hash of what was read and
  the references.  The receiver computes the path from the hash of the archive
  and no references.  The two agree on the paths without references whose tree
  is what was hashed, and on no others (`importVerified_exportPaths_iff`).
-/

import NixStore.Arch.ImportVerified
import NixStore.Store.RoundTrip

namespace NixStore
namespace DiskStore

open Effect OrderedSet Wire

variable {store : StoreDirConfig}

-- ============================================================================
-- Paths that were added from a dump
-- ============================================================================

/-- The store as `export-path` opens it. -/
def opened (pathInfoCacheSize : Nat) (s : DiskStore) : DiskStore :=
  { s with pathInfoCache := LruCache.empty pathInfoCacheSize }

variable (store) in
/-- Two states have the same of a path. -/
structure Unchanged (s s' : DiskStore) (p : StorePath) : Prop where
  row : s'.db.queryPathInfo (store.printStorePath p) = s.db.queryPathInfo (store.printStorePath p)
  refers : ∀ u, s'.db.Refers (store.printStorePath p) u ↔ s.db.Refers (store.printStorePath p) u
  tree : s'.tree p = s.tree p

variable (store) in
/-- A call of `addToStoreFromDump` for an archive and SHA-256 has made a path
    valid, and nothing about it has changed since. -/
def AddedFromDump (s : DiskStore) (p : StorePath) : Prop :=
  ∃ now narBufferSize chunks turns name references repair s₀ s₁,
    addToStoreFromDump store now narBufferSize chunks turns name .nixArchive .nixArchive .sha256
      references repair s₀ = .ok p s₁ ∧
    ¬ s₀.db.Valid (store.printStorePath p) ∧ s₁.db.Valid (store.printStorePath p) ∧
    Unchanged store s₁ s p

variable (store) in
/-- What a store has of such a path: it was computed from a part of the stream,
    which need not be the archive of the tree. -/
structure Dumped (s : DiskStore) (p : StorePath) (references : Finset StorePath)
    (hashed nar : Bytes) (f : File) : Prop where
  path : store.makeFixedOutputPath p.name .nixArchive (store.hashString .sha256 hashed).1
    { others := references, self := false } = .ok p
  named : realName p ≠ none
  row : ∃ now id, s.db.queryPathInfo (store.printStorePath p)
    = some { LocalStore.columns store now (archiveInfo store p references hashed) with id }
  refers : ∀ u, s.db.Refers (store.printStorePath p) u ↔
    ∃ q ∈ references, u = store.printStorePath q
  tree : s.tree p = some f
  limits : f.WithinLimits narMaxDepth
  archive : dumpPath NarNode.plain defaultPathFilter f = .ok nar

/-- The part that was hashed for a new path, and what the call has registered. -/
theorem imported_of_dump {now : Int} {narBufferSize : Nat} {chunks : List Bytes} {turns : List Nat}
    {name : Bytes} {references : Finset StorePath} {repair : Bool} {s s' : DiskStore}
    {p : StorePath}
    (hrun : addToStoreFromDump store now narBufferSize chunks turns name .nixArchive .nixArchive
      .sha256 references repair s = .ok p s')
    (hnew : ¬ s.db.Valid (store.printStorePath p)) (hvalid : s'.db.Valid (store.printStorePath p)) :
    ∃ hashed s₁, store.makeFixedOutputPathFromCA name (archiveDesc store references hashed) = .ok p ∧
      SameContents s s₁ ∧
      ImportedDump store now chunks.flatten (archiveInfo store p references hashed) s₁ s' := by
  have houtcome : Run s (addToStoreFromDump store now narBufferSize chunks turns name .nixArchive
      .nixArchive .sha256 references repair) _ _ :=
    addToStoreFromDump_outcome narBufferSize chunks turns name references repair s
  obtain ⟨hashed, -, hpath, hadded⟩ := houtcome.of_ok rfl hrun
  cases hadded with
  | skipped _ _ hsame =>
      rw [hsame.db_eq] at hvalid
      exact absurd hvalid hnew
  | valid _ _ hold _ _ _ => exact absurd hold hnew
  | imported s₁ _ hsame himported => exact ⟨hashed, s₁, hpath, hsame, himported⟩

theorem AddedFromDump.dumped {s : DiskStore} {p : StorePath} (h : AddedFromDump store s p) :
    ∃ references hashed nar f, Dumped store s p references hashed nar f := by
  obtain ⟨now, narBufferSize, chunks, turns, name, references, repair, s₀, s₁, hrun, hnew, hvalid,
    hsince⟩ := h
  obtain ⟨hashed, s₂, hpath, hsame, himported⟩ := imported_of_dump hrun hnew hvalid
  obtain ⟨hdash, hname⟩ := store.makeFixedOutputPathFromCA_eq_ok hpath
  obtain ⟨f, nar, hrestore, hplaced⟩ := himported.placed
  obtain ⟨f', heq, hlimits, hdump, -⟩ := restorePath_eq_ok.mp hrestore
  cases heq
  have hdb := himported.committed
  rw [hsame.db_eq] at hdb
  refine ⟨references, hashed, nar, f, ?_, ?_, ?_, ?_, ?_, hlimits, hdump⟩
  · rw [hname]
    exact hpath
  · refine realName_ne_none ⟨?_, ?_⟩ <;> rw [hdash] <;> decide
  · obtain ⟨id, hrow⟩ := hdb.added (archiveInfo store p references hashed)
      (List.mem_singleton.mpr rfl) hnew
    exact ⟨now, id, hsince.row.trans hrow⟩
  · exact fun u => (hsince.refers u).trans (refers_single_new hdb hnew u)
  · rw [hsince.tree]
    exact (hplaced p).trans (if_pos rfl)

/-- A call that makes a path valid keeps what was valid. -/
theorem imported_keeps {now : Int} {stream : Bytes} {info : ValidPathInfo} {s s₁ s' : DiskStore}
    (hnew : ¬ s.db.Valid (store.printStorePath info.path)) (hsame : SameContents s s₁)
    (h : ImportedDump store now stream info s₁ s') : Keeps store s s' := by
  have hdb := h.committed
  rw [hsame.db_eq] at hdb
  have hother : ∀ p, s.db.Valid (store.printStorePath p) →
      store.printStorePath info.path ≠ store.printStorePath p := by
    intro p hp heq
    rw [← heq] at hp
    exact hnew hp
  refine ⟨?_, ?_, ?_⟩
  · intro p hp
    refine hdb.other _ fun i hi => ?_
    rw [List.mem_singleton.mp hi]
    exact hother p hp
  · intro p hp u
    rw [refers_single hdb]
    exact or_iff_left fun h => hother p hp h.1.symm
  · intro p hp
    obtain ⟨f, nar, -, hplaced⟩ := h.placed
    rw [hplaced p, if_neg fun heq => hother p hp (by rw [heq]), tree, hsame.files_eq, tree]

theorem AddedFromDump.keep {s s' : DiskStore} {p : StorePath} (h : AddedFromDump store s p)
    (hvalid : s.db.Valid (store.printStorePath p)) (hkeep : Keeps store s s') :
    AddedFromDump store s' p := by
  obtain ⟨now, narBufferSize, chunks, turns, name, references, repair, s₀, s₁, hrun, hnew, hmade,
    hsince⟩ := h
  refine ⟨now, narBufferSize, chunks, turns, name, references, repair, s₀, s₁, hrun, hnew, hmade,
    ?_, ?_, ?_⟩
  · exact (hkeep.row p hvalid).trans hsince.row
  · exact fun u => (hkeep.refers p hvalid u).trans (hsince.refers u)
  · exact (hkeep.tree p hvalid).trans hsince.tree

-- ============================================================================
-- Shipping
-- ============================================================================

variable (store) in
/-- What the store has registered for a path, and the archive of its tree. -/
def Holding (s : DiskStore) (p : StorePath) (i : ValidPathInfo) (nar : Bytes) : Prop :=
  LocalStore.queryPathInfoInternal store s.db p = .ok (some i) ∧
    ∃ f, s.tree p = some f ∧ dumpPath NarNode.plain defaultPathFilter f = .ok nar

variable (store) in
/-- The path digest tells the text that a path was computed from and the text
    that the receiver computes apart. -/
def TellsArchive (s : DiskStore) (p : StorePath) : Prop :=
  ∀ i nar, Holding store s p i nar →
    let received := store.sourceFingerprint p.name (store.hashString .sha256 nar).1
      { others := ∅, self := false }
    let made := store.sourceFingerprint p.name i.narHash { others := i.references, self := false }
    store.pathDigest received = store.pathDigest made → received = made

variable (store) in
/-- 64 bits are enough for the lengths in the record of a path. -/
def Fits (s : DiskStore) (p : StorePath) : Prop :=
  ∀ i nar, Holding store s p i nar →
    (recordBytes store nar p i.references i.deriver).length < 2 ^ 64

variable (store) in
/-- What `export-path` writes for these paths is accepted by `import-path`,
    into an empty store, and makes them valid and nothing else. -/
def Ships (now : Int) (exporterCache importerCache : Nat) (s : DiskStore) (P : Finset StorePath) :
    Prop :=
  ∃ bytes s', exportPaths store P (opened exporterCache s) = .ok bytes s' ∧
    ∃ paths t, importVerified store now bytes (fresh importerCache) = .ok paths t ∧
      ∀ u, t.db.Valid u ↔ ∃ p ∈ P, u = store.printStorePath p

section

variable {s : DiskStore} {P : Finset StorePath}

/-- A path of a closed set can be queried. -/
theorem Dumped.holding {p : StorePath} {references : Finset StorePath} {hashed nar : Bytes}
    {f : File} (h : Dumped store s p references hashed nar f)
    (hrefs : ∀ q ∈ references, LocalStore.Readable q) :
    ∃ i, Holding store s p i nar ∧ i.narHash = (store.hashString .sha256 hashed).1 ∧
      i.references = references ∧ i.deriver = none := by
  obtain ⟨now, hrow⟩ := h.row
  have hreads : ∃ i, LocalStore.queryPathInfoInternal store s.db
      (archiveInfo store p references hashed).path = .ok (some i) ∧ i.Same (archiveInfo store p references hashed) :=
    reads_of_row hrow h.refers (fun sig hsig => absurd hsig (Finset.notMem_empty sig)) hrefs
      fun d hd => by cases hd
  obtain ⟨i, hquery, hsame⟩ := hreads
  exact ⟨i, ⟨hquery, f, h.tree, h.archive⟩, hsame.narHash_eq, hsame.references_eq, hsame.deriver_eq⟩

/-- A path is intact if its tree has the hash it was computed from. -/
theorem Dumped.intact_iff {p : StorePath} {references : Finset StorePath} {hashed nar : Bytes}
    {f : File} (h : Dumped store s p references hashed nar f) :
    Intact store s p ↔ (store.hashString .sha256 hashed).1 = (store.hashString .sha256 nar).1 := by
  obtain ⟨now, id, hrow⟩ := h.row
  have hread : LocalStore.readNarHash store p
      (LocalStore.hashColumn (archiveInfo store p references hashed))
      = .ok (store.hashString .sha256 hashed).1 := LocalStore.readNarHash_column p _
  constructor
  · rintro ⟨row, f', nar', hrow', htree, hdump, hhash⟩
    rw [hrow] at hrow'
    cases hrow'
    rw [h.tree] at htree
    cases htree
    rw [h.archive] at hdump
    cases hdump
    exact Except.ok.inj (hread.symm.trans hhash)
  · intro hsame
    exact ⟨_, f, nar, hrow, h.tree, h.archive, hread.trans (congrArg Except.ok hsame)⟩

/-- The receiver's check of such a path. -/
theorem Dumped.check_of_plain {p : StorePath} {references : Finset StorePath} {hashed nar : Bytes}
    {f : File} (h : Dumped store s p references hashed nar f)
    (hsame : (store.hashString .sha256 hashed).1 = (store.hashString .sha256 nar).1)
    (hnone : references = ∅) :
    checkIntegrity store p (store.hashString .sha256 nar).1 = .ok () := by
  rw [checkIntegrity_eq_ok, ← hsame]
  have hpath := h.path
  rw [hnone] at hpath
  exact hpath

/-- A path that passes the receiver's check is that of its archive. -/
theorem Dumped.plain_of_check {p : StorePath} {references : Finset StorePath} {hashed nar : Bytes}
    {f : File} (h : Dumped store s p references hashed nar f)
    (hrefs : ∀ q ∈ references, LocalStore.Readable q) (htells : TellsArchive store s p)
    (hcheck : checkIntegrity store p (store.hashString .sha256 nar).1 = .ok ()) :
    (store.hashString .sha256 hashed).1 = (store.hashString .sha256 nar).1 ∧ references = ∅ := by
  obtain ⟨i, hholding, hhash, hreferences, -⟩ := h.holding hrefs
  have htext := htells i nar hholding
  simp only [hhash, hreferences] at htext
  rw [checkIntegrity_eq_ok] at hcheck
  have hsha := (store.hashString .sha256 nar).2
  have hsha' := (store.hashString .sha256 hashed).2
  obtain ⟨hnone, hsame⟩ := store.sourceFingerprint_without_references hsha hsha'
    (htext (store.pathDigest_eq_of_same_path hsha hsha' hcheck h.path))
  exact ⟨hsame.symm, congrArg StoreReferences.others hnone⟩

/-- With a digest that has no collisions here, a closed set of paths that were
    added from dumps is shipped exactly if every tree is what was hashed for its
    path and no path has references. -/
theorem importVerified_exportPaths_iff (now : Int) (exporterCache importerCache : Nat)
    (s : DiskStore) (P : Finset StorePath) (hadded : ∀ p ∈ P, AddedFromDump store s p)
    (hclosed : ∀ p ∈ P, ∀ u, s.db.Refers (store.printStorePath p) u →
      ∃ q ∈ P, u = store.printStorePath q)
    (htells : ∀ p ∈ P, TellsArchive store s p) (hfits : ∀ p ∈ P, Fits store s p) :
    Ships store now exporterCache importerCache s P ↔
      ∀ p ∈ P, Intact store s p ∧ ∀ u, ¬ s.db.Refers (store.printStorePath p) u := by
  -- name what the store has of each path
  have hchoose : ∀ p, ∃ references hashed nar f, p ∈ P →
      Dumped store s p references hashed nar f := by
    intro p
    by_cases hp : p ∈ P
    · obtain ⟨references, hashed, nar, f, hdumped⟩ := (hadded p hp).dumped
      exact ⟨references, hashed, nar, f, fun _ => hdumped⟩
    · exact ⟨∅, [], [], .regular false [], fun h => absurd h hp⟩
  choose references hashed nar file hdumped using hchoose
  have hreadable : ∀ p ∈ P, LocalStore.Readable p :=
    fun p hp => readable_of_realName (hdumped p hp).named
  have hinside : ∀ p ∈ P, ∀ q ∈ references p, q ∈ P := by
    intro p hp q hq
    obtain ⟨q', hq', htext⟩ := hclosed p hp _ (((hdumped p hp).refers _).mpr ⟨q, hq, rfl⟩)
    rw [store.printStorePath_inj htext]
    exact hq'
  have hrefs : ∀ p ∈ P, ∀ q ∈ references p, LocalStore.Readable q :=
    fun p hp q hq => hreadable q (hinside p hp q hq)
  have hinfo : ∀ p, ∃ i, p ∈ P → Holding store s p i (nar p) ∧
      i.narHash = (store.hashString .sha256 (hashed p)).1 ∧ i.references = references p ∧
      i.deriver = none := by
    intro p
    by_cases hp : p ∈ P
    · obtain ⟨i, hi⟩ := (hdumped p hp).holding (hrefs p hp)
      exact ⟨i, fun _ => hi⟩
    · exact ⟨archiveInfo store p ∅ [], fun h => absurd h hp⟩
  choose info hholds using hinfo
  have hexportable : Exportable store (opened exporterCache s) P info nar := by
    refine ⟨fun p hp => (hholds p hp).1.1, fun p hp v hv => ?_, fun p hp => (hholds p hp).1.2⟩
    rw [show (opened exporterCache s).pathInfoCache.find p = none from rfl] at hv
    cases hv
  have hreadables : ∀ l : List StorePath, (∀ p ∈ l, p ∈ P) → Readables store info nar l := by
    intro l hl p hp
    have hp := hl p hp
    obtain ⟨hholding, -, hreferences, hderiver⟩ := hholds p hp
    refine ⟨⟨⟨file p, (hdumped p hp).limits, (hdumped p hp).archive⟩, (hreadable p hp).1, ?_, ?_,
      hfits p hp _ _ hholding⟩, (hdumped p hp).named⟩
    · rw [hreferences]
      exact fun q hq => (hrefs p hp q hq).1
    · rw [hderiver]
      intro d hd
      cases hd
  -- a path without references
  have hplain : ∀ p ∈ P, (∀ u, ¬ s.db.Refers (store.printStorePath p) u) ↔ references p = ∅ := by
    intro p hp
    simp only [(hdumped p hp).refers]
    constructor
    · exact fun h => Finset.eq_empty_of_forall_notMem fun q hq => h _ ⟨q, hq, rfl⟩
    · rintro h u ⟨q, hq, -⟩
      rw [h] at hq
      exact Finset.notMem_empty q hq
  constructor
  · rintro ⟨bytes, s', hexport, paths, t, himport, -⟩ p hp
    obtain ⟨sorted, hsorted, rfl⟩ := exportPaths_exportable.of_ok hexportable hexport
    have hmem : ∀ q, q ∈ sorted.reverse ↔ q ∈ P :=
      fun q => List.mem_reverse.trans (hsorted.mem_iff q)
    have hcheck := checked_of_importLoop (hreadables _ fun q hq => (hmem q).mp hq) himport p
      ((hmem p).mpr hp)
    obtain ⟨hsame, hnone⟩ := (hdumped p hp).plain_of_check (hrefs p hp) (htells p hp) hcheck
    exact ⟨(hdumped p hp).intact_iff.mpr hsame, (hplain p hp).mpr hnone⟩
  · intro h
    have hnone : ∀ p ∈ P, (info p).references = ∅ :=
      fun p hp => (hholds p hp).2.2.1.trans ((hplain p hp).mp (h p hp).2)
    have hsame : ∀ p ∈ P, (store.hashString .sha256 (hashed p)).1
        = (store.hashString .sha256 (nar p)).1 :=
      fun p hp => (hdumped p hp).intact_iff.mp (h p hp).1
    cases hexport : exportPaths store P (opened exporterCache s) with
    | error e s' =>
        rcases exportPaths_exportable.of_error hexportable hexport with ⟨p, hp, hne⟩ | hcycle
        · exact absurd ((hsame p hp).symm.trans (hholds p hp).2.1.symm) hne
        · refine absurd (Acyclic.of_rank (fun _ => 0) ?_) hcycle
          rintro p q ⟨hq, hp, -⟩
          rw [hnone p hp] at hq
          exact absurd hq (Finset.notMem_empty q)
    | ok bytes s' =>
        obtain ⟨sorted, hsorted, rfl⟩ := exportPaths_exportable.of_ok hexportable hexport
        have hmem : ∀ q, q ∈ sorted.reverse ↔ q ∈ P :=
          fun q => List.mem_reverse.trans (hsorted.mem_iff q)
        have hrounds : sorted.reverse.length
            < (streamOf store info nar sorted.reverse).length + 1 :=
          Nat.lt_succ_of_lt (length_lt_streamOf sorted.reverse)
        obtain ⟨t, himport, hclean, -, -⟩ := importLoop_stream _ (checkIntegrity store) now
          (hreadables _ fun q hq => (hmem q).mp hq)
          (fun p hp => (hdumped p ((hmem p).mp hp)).check_of_plain (hsame p ((hmem p).mp hp))
            ((hplain p ((hmem p).mp hp)).mp (h p ((hmem p).mp hp)).2))
          (List.nodup_reverse.mpr hsorted.nodup)
          (fun front p rest hsplit q hq => by
            have hp : p ∈ P := by
              rw [← hmem p, hsplit]
              exact List.mem_append_right _ List.mem_cons_self
            rw [hnone p hp] at hq
            exact absurd hq (Finset.notMem_empty q))
          (clean_fresh importerCache) hrounds
        refine ⟨_, s', hexport, sorted.reverse, t, himport, fun u => ?_⟩
        rw [hclean.valid]
        exact exists_congr fun p => and_congr_left fun _ => hmem p

end

namespace Sample

/-- An empty file is added under this name. -/
def addEmpty (name : String) (references : Finset StorePath) : DiskM StorePath :=
  addToStoreFromDump measured 1 65536 [emptyNar] [] (ascii name) .nixArchive .nixArchive .sha256
    references false

/-- An empty file without references. -/
def plainStore : DiskStore := final (addEmpty "a" ∅) (fresh 10)

/-- And one that refers to it. -/
def referringStore : DiskStore := final (addEmpty "b" {emptyPath}) plainStore

/-- The path of the second file. -/
def referringPath : StorePath :=
  match addEmpty "b" {emptyPath} plainStore with
  | .ok p _ => p
  | .error _ _ => emptyPath

/-- Whether a call returns a path and leaves it valid, where it was not. -/
def makesValid (x : DiskM StorePath) (s : DiskStore) (p : StorePath) : Bool :=
  match x s with
  | .ok q s' => decide (q = p) && !(s.db.queryPathInfo (measured.printStorePath p)).isSome &&
      (s'.db.queryPathInfo (measured.printStorePath p)).isSome
  | .error _ _ => false

theorem of_makesValid {x : DiskM StorePath} {s : DiskStore} {p : StorePath}
    (h : makesValid x s p = true) :
    x s = .ok p (final x s) ∧ ¬ s.db.Valid (measured.printStorePath p) ∧
      (final x s).db.Valid (measured.printStorePath p) := by
  unfold makesValid at h
  cases hrun : x s with
  | error e s' =>
      rw [hrun] at h
      cases h
  | ok q s' =>
      rw [hrun] at h
      simp only [Bool.and_eq_true, decide_eq_true_eq, Bool.not_eq_true'] at h
      obtain ⟨⟨rfl, hnew⟩, hvalid⟩ := h
      rw [final, hrun]
      refine ⟨rfl, fun hold => ?_, Db.isSome_queryPathInfo.mp hvalid⟩
      rw [Db.isSome_queryPathInfo.mpr hold] at hnew
      cases hnew

theorem added_of_makesValid {name : String} {references : Finset StorePath} {s : DiskStore}
    {p : StorePath} (h : makesValid (addEmpty name references) s p = true) :
    AddedFromDump measured (final (addEmpty name references) s) p ∧
      Keeps measured s (final (addEmpty name references) s) := by
  obtain ⟨hrun, hnew, hvalid⟩ := of_makesValid h
  obtain ⟨hashed, s₁, -, hsame, himported⟩ := imported_of_dump hrun hnew hvalid
  exact ⟨⟨1, 65536, [emptyNar], [], ascii name, references, false, s, _, hrun, hnew, hvalid, rfl,
    fun _ => Iff.rfl, rfl⟩, imported_keeps hnew hsame himported⟩

theorem plainStore_added : AddedFromDump measured plainStore emptyPath :=
  (added_of_makesValid (by decide +kernel)).1

theorem referringStore_added : AddedFromDump measured referringStore emptyPath ∧
    AddedFromDump measured referringStore referringPath := by
  have hsecond : makesValid (addEmpty "b" {emptyPath}) plainStore referringPath = true := by
    decide +kernel
  obtain ⟨hadded, hkeep⟩ := added_of_makesValid hsecond
  refine ⟨plainStore_added.keep ?_ hkeep, hadded⟩
  exact Db.isSome_queryPathInfo.mp (by decide +kernel)

/-- Whether what is registered for a path refers to these paths only. -/
def refersInside (s : DiskStore) (P : Finset StorePath) (p : StorePath) : Bool :=
  match s.db.queryPathInfo (measured.printStorePath p) with
  | some row => decide (∀ u ∈ s.db.queryReferences row.id, ∃ q ∈ P, u = measured.printStorePath q)
  | none => false

theorem of_refersInside {s : DiskStore} {P : Finset StorePath} {p : StorePath}
    (h : refersInside s P p = true) (u : Bytes)
    (hu : s.db.Refers (measured.printStorePath p) u) : ∃ q ∈ P, u = measured.printStorePath q := by
  unfold refersInside at h
  split at h
  · next row hrow =>
      obtain ⟨hmem, hpath⟩ := Db.queryPathInfo_eq_some.mp hrow
      rw [← hpath] at hu
      exact of_decide_eq_true h u ((Db.mem_queryReferences hmem).mpr hu)
  · cases h

/-- Whether the digest and 64 bits do for an empty file at a path. -/
def tellsEmpty (s : DiskStore) (p : StorePath) : Bool :=
  isEmptyFile (s.tree p) &&
    match LocalStore.queryPathInfoInternal measured s.db p with
    | .ok (some i) =>
        let received := measured.sourceFingerprint p.name (measured.hashString .sha256 emptyNar).1
          { others := ∅, self := false }
        let made := measured.sourceFingerprint p.name i.narHash
          { others := i.references, self := false }
        decide (measured.pathDigest received = measured.pathDigest made → received = made) &&
          decide ((recordBytes measured emptyNar p i.references i.deriver).length < 2 ^ 64)
    | _ => false

theorem of_tellsEmpty {s : DiskStore} {p : StorePath} (h : tellsEmpty s p = true) :
    TellsArchive measured s p ∧ Fits measured s p := by
  unfold tellsEmpty at h
  rw [Bool.and_eq_true] at h
  obtain ⟨hfile, h⟩ := h
  have hnar : ∀ i nar, Holding measured s p i nar → nar = emptyNar := by
    rintro i nar ⟨-, f, htree, hdump⟩
    rw [eq_of_isEmptyFile hfile] at htree
    cases htree
    exact (Except.ok.inj hdump).symm
  split at h
  · next i hi =>
      rw [Bool.and_eq_true] at h
      have hinfo : ∀ j nar, Holding measured s p j nar → j = i := by
        rintro j nar ⟨hj, -⟩
        rw [hi] at hj
        cases hj
        rfl
      refine ⟨fun j nar hholding => ?_, fun j nar hholding => ?_⟩
      · rw [hnar j nar hholding, hinfo j nar hholding]
        exact of_decide_eq_true h.1
      · rw [hnar j nar hholding, hinfo j nar hholding]
        exact of_decide_eq_true h.2
  · cases h

/-- Whether the receiver refuses what is exported. -/
def refused (s : DiskStore) (P : Finset StorePath) : Bool :=
  match exportPaths measured P (opened 10 s) with
  | .error _ _ => false
  | .ok bytes _ =>
      match importVerified measured 1 bytes (fresh 10) with
      | .ok _ _ => false
      | .error _ _ => true

theorem not_ships_of_refused {s : DiskStore} {P : Finset StorePath} (h : refused s P = true) :
    ¬ Ships measured 1 10 10 s P := by
  rintro ⟨bytes, s', hexport, paths, t, himport, -⟩
  rw [refused, hexport] at h
  simp only [himport] at h
  cases h

end Sample

/-- One empty file without references. -/
theorem importVerified_exportPaths_plain :
    AddedFromDump Sample.measured Sample.plainStore Sample.emptyPath ∧
    TellsArchive Sample.measured Sample.plainStore Sample.emptyPath ∧
    Fits Sample.measured Sample.plainStore Sample.emptyPath ∧
    (Ships Sample.measured 1 10 10 Sample.plainStore {Sample.emptyPath} ↔
      ∀ p ∈ ({Sample.emptyPath} : Finset StorePath), Intact Sample.measured Sample.plainStore p ∧
        ∀ u, ¬ Sample.plainStore.db.Refers (Sample.measured.printStorePath p) u) := by
  obtain ⟨htells, hfits⟩ : TellsArchive Sample.measured Sample.plainStore Sample.emptyPath ∧
      Fits Sample.measured Sample.plainStore Sample.emptyPath :=
    Sample.of_tellsEmpty (by decide +kernel)
  refine ⟨Sample.plainStore_added, htells, hfits,
    importVerified_exportPaths_iff 1 10 10 _ _ ?_ ?_ ?_ ?_⟩
  · intro p hp
    rw [Finset.mem_singleton.mp hp]
    exact Sample.plainStore_added
  · intro p hp
    rw [Finset.mem_singleton.mp hp]
    exact Sample.of_refersInside (by decide +kernel)
  · intro p hp
    rw [Finset.mem_singleton.mp hp]
    exact htells
  · intro p hp
    rw [Finset.mem_singleton.mp hp]
    exact hfits

/-- An empty file that refers to another one is exported and then refused. -/
theorem importVerified_refuses_references :
    (∀ p ∈ ({Sample.emptyPath, Sample.referringPath} : Finset StorePath),
      AddedFromDump Sample.measured Sample.referringStore p ∧
      ∀ u, Sample.referringStore.db.Refers (Sample.measured.printStorePath p) u →
        ∃ q ∈ ({Sample.emptyPath, Sample.referringPath} : Finset StorePath),
          u = Sample.measured.printStorePath q) ∧
    ¬ Ships Sample.measured 1 10 10 Sample.referringStore
      {Sample.emptyPath, Sample.referringPath} := by
  refine ⟨fun p hp => ?_, Sample.not_ships_of_refused (by decide +kernel)⟩
  rcases Finset.mem_insert.mp hp with rfl | hp
  · exact ⟨Sample.referringStore_added.1, Sample.of_refersInside (by decide +kernel)⟩
  · rw [Finset.mem_singleton.mp hp]
    exact ⟨Sample.referringStore_added.2, Sample.of_refersInside (by decide +kernel)⟩

end DiskStore
end NixStore
