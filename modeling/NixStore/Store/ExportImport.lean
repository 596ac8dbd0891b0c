/-
  NixStore.Store.ExportImport

  `exportPaths` and `importPaths` (`libstore/export-import.cc`), with the
  length-prefixed sets of `libstore/length-prefixed-protocol-helper.hh`, and
  `importVerified` (`arch/import-path.cc`), which is the same loop with a check
  of every path against its contents.

  A stream is a list of records.  A record is an archive, the path it belongs
  to, what the path refers to and what it was derived from.
-/

import NixStore.Store.AddToStore
import NixStore.Util.NarSkip

namespace NixStore

open Effect OrderedSet Wire

-- ============================================================================
-- The wire format
-- ============================================================================

/-- `exportMagic`. -/
def exportMagic : Nat := 0x4558494e

/-- The default limit of `readString`, the largest `size_t`. -/
def maxString : Nat := 2 ^ 64 - 1

/-- `readInt`, which is `readNum<unsigned int>`. -/
def readInt (source : Bytes) : Except Error (Nat × Bytes) := do
  let (n, source) ← readNum source
  throwIf (n > 2 ^ 32 - 1)
    (.serialisation s!"serialised integer {n} is too large for type 'j'")
  pure (n, source)

/-- `Hash(algo)`: all zero. -/
def Hash.zero (algo : HashAlgorithm) : Hash :=
  ⟨algo, List.replicate (regularHashSize algo) 0, Hash.size_zeros algo⟩

section Wire

variable (store : StoreDirConfig)

/-- `LengthPrefixedProtoHelper<std::set<StorePath>>::write`. -/
def writeStorePathSet (paths : Finset StorePath) : Bytes :=
  writeNum paths.card ++ (inOrder paths).flatMap fun p => writeString (store.printStorePath p)

/-- The loop of `LengthPrefixedProtoHelper<std::set<StorePath>>::read`. -/
def readStorePathsLoop : Nat → Bytes → Except Error (Finset StorePath × Bytes)
  | 0, source => .ok (∅, source)
  | size + 1, source => do
      let (text, source) ← readString maxString source
      let path ← store.parseStorePath text
      let (paths, source) ← readStorePathsLoop size source
      pure (insert path paths, source)

/-- `LengthPrefixedProtoHelper<std::set<StorePath>>::read`. -/
def readStorePathSet (source : Bytes) : Except Error (Finset StorePath × Bytes) := do
  let (size, source) ← readNum source
  readStorePathsLoop store size source

/-- `parseDump` into a sink that ignores everything, with what was read. -/
def skipDump (source : Bytes) : Except Error (Bytes × Bytes) := do
  let (rest, _) ← parseDump NarNode.plain nullFileSystemObjectSink source ()
  pure (source.take (source.length - rest.length), rest)

/-- What `exportPath` writes for a path with this archive. -/
def recordBytes (nar : Bytes) (path : StorePath) (references : Finset StorePath)
    (deriver : Option StorePath) : Bytes :=
  nar ++ (writeNum exportMagic ++ (writeString (store.printStorePath path) ++
    (writeStorePathSet store references ++
      (writeString ((deriver.map store.printStorePath).getD []) ++ writeNum 0))))

/-- The deriver in a record. -/
def parseDeriver (text : Bytes) : Except Error (Option StorePath) :=
  if text ≠ [] then (store.parseStorePath text).map some else .ok none

/-- The optional legacy signature behind a record. -/
def skipSignature (source : Bytes) : Except Error Bytes := do
  let (n, source) ← readInt source
  if n = 1 then do
    let (_, source) ← readString maxString source
    pure source
  else pure source

/-- What the import loops read for one record: the info to register, the
    archive, and the rest of the source.  `check` is what `importVerified` has
    between the hash and the rest. -/
def parseRecord (check : StorePath → Hash → Except Error Unit) (source : Bytes) :
    Except Error (ValidPathInfo × Bytes × Bytes) := do
  let (saved, source) ← skipDump source
  let (magic, source) ← readInt source
  throwIf (magic ≠ exportMagic) (.error "Nix archive cannot be imported; wrong format")
  let (text, source) ← readString maxString source
  let path ← store.parseStorePath text
  let (references, source) ← readStorePathSet store source
  let (deriverText, source) ← readString maxString source
  let narHash := (store.hashString .sha256 saved).1
  check path narHash
  let deriver ← parseDeriver store deriverText
  let source ← skipSignature source
  pure
    ({ path, deriver, narHash, references
       registrationTime := 0
       narSize := UInt64.ofNat saved.length
       ultimate := false
       sigs := ∅
       ca := none }, saved, source)

end Wire

/-- `ContentAddressWithReferences::withoutRefs`. -/
def ContentAddressWithReferences.withoutRefs (ca : ContentAddress) : ContentAddressWithReferences :=
  match ca.method with
  | .text => .text ca.hash ∅
  | m => .fixedOutput m.getFileIngestionMethod ca.hash { others := ∅, self := false }

-- ============================================================================
-- Records are read back
-- ============================================================================

section Codec

variable {store : StoreDirConfig}

theorem readInt_eq_ok {source rest : Bytes} {n : Nat} :
    readInt source = .ok (n, rest) ↔ n < 2 ^ 32 ∧ source = writeNum n ++ rest := by
  simp only [readInt, bind_eq_ok, Prod.exists, readNum_eq_ok, throwIf_eq_ok, pure_eq_ok]
  constructor
  · rintro ⟨m, source', ⟨-, rfl⟩, -, hle, heq⟩
    cases heq
    exact ⟨by omega, rfl⟩
  · rintro ⟨hlt, rfl⟩
    exact ⟨n, rest, ⟨by omega, rfl⟩, (), by omega, rfl⟩

theorem readString_write {s rest : Bytes} (h : s.length < 2 ^ 64) :
    readString maxString (writeString s ++ rest) = .ok (s, rest) := by
  refine readString_eq_ok.mpr ⟨?_, h, rfl⟩
  unfold maxString
  omega

theorem length_le_writeString (s : Bytes) : s.length ≤ (writeString s).length := by
  simp only [writeString, List.length_append]
  omega

theorem length_writeString_pos (s : Bytes) : 0 < (writeString s).length := by
  simp only [writeString, List.length_append, writeNum_length]
  omega

namespace NarNode

mutual

/-- The contents of a file are less than the archive by the length in front of
    them, at least. -/
theorem contents_length_le : ∀ x : NarNode,
    x.AllFiles fun contents _ => contents.length + 8 ≤ x.encode.length
  | .regular e contents pad => by
      show contents.length + 8 ≤ _
      simp only [encode, List.length_append, writeNum_length]
      omega
  | .symlink _ => trivial
  | .directory es => by
      refine AllFilesEntries.weaken (entries_contents_length_le es) fun contents _ h => ?_
      simp only [encode, List.length_append]
      omega

theorem entries_contents_length_le : ∀ es : List (Bytes × NarNode),
    AllFilesEntries (fun contents _ => contents.length + 8 ≤ (encodeEntries es).length) es
  | [] => trivial
  | (name, x) :: rest => by
      refine ⟨AllFiles.weaken (contents_length_le x) fun contents _ h => ?_,
        AllFilesEntries.weaken (entries_contents_length_le rest) fun contents _ h => ?_⟩
      · simp only [encodeEntries, List.length_append]
        omega
      · simp only [encodeEntries, List.length_append]
        omega

end

/-- Every file of an archive of less than 2^64 bytes can be skipped. -/
theorem alignable_of_length {x : NarNode} (h : x.encode.length < 2 ^ 64) : x.Alignable :=
  AllFiles.weaken (contents_length_le x) fun contents _ hle => by omega

end NarNode

theorem skipDump_dump {f : File} {nar : Bytes} (hlimits : f.WithinLimits narMaxDepth)
    (hdump : dumpPath NarNode.plain defaultPathFilter f = .ok nar) (hsize : nar.length < 2 ^ 64)
    (rest : Bytes) : skipDump (nar ++ rest) = .ok (nar, rest) := by
  rw [NarNode.dumpPath_eq_ok hlimits] at hdump
  cases hdump
  have halign : f.toNar.Alignable := by
    refine NarNode.alignable_of_length (lt_of_le_of_lt ?_ hsize)
    rw [List.length_append]
    omega
  have hlegal := NarNode.legal_toNar.mpr hlimits
  have hfeed : NarNode.feed nullFileSystemObjectSink NarNode.plain [] f.toNar () = .ok () :=
    NarNode.feed_null restoreSink NarNode.plain [] (NarNode.feed_builds NarNode.restoreSink_builds hlegal)
  have hparse : parseDump NarNode.plain nullFileSystemObjectSink
      (writeString narVersionMagic1 ++ f.toNar.encode ++ rest) () = .ok (rest, ()) :=
    (NarNode.parseDump_eq_ok _ _).mpr
      ⟨f.toNar, hlegal, List.append_assoc _ _ _, halign, hfeed⟩
  rw [skipDump, hparse, ok_bind]
  simp only [List.length_append, Nat.add_sub_cancel, pure_eq_ok]
  rw [← List.length_append, List.take_left]

theorem readStorePathsLoop_write {l : List StorePath}
    (hsep : ∀ p ∈ l, p.separator ≠ 0x2f)
    (hlen : ∀ p ∈ l, (store.printStorePath p).length < 2 ^ 64) (rest : Bytes) :
    readStorePathsLoop store l.length
        (l.flatMap (fun p => writeString (store.printStorePath p)) ++ rest)
      = .ok (l.toFinset, rest) := by
  induction l with
  | nil => rfl
  | cons p l ih =>
      rw [List.flatMap_cons, List.append_assoc, List.length_cons, readStorePathsLoop,
        readString_write (hlen p List.mem_cons_self), ok_bind]
      simp only [store.parseStorePath_print (hsep p List.mem_cons_self), ok_bind,
        ih (fun q hq => hsep q (List.mem_cons_of_mem _ hq))
          (fun q hq => hlen q (List.mem_cons_of_mem _ hq)), pure_eq_ok, List.toFinset_cons]

theorem length_le_flatMap {α : Type} {l : List α} {g : α → Bytes} {a : α} (h : a ∈ l) :
    (g a).length ≤ (l.flatMap g).length := by
  obtain ⟨front, back, rfl⟩ := List.append_of_mem h
  simp only [List.flatMap_append, List.flatMap_cons, List.length_append]
  omega

theorem count_le_flatMap {α : Type} (l : List α) {g : α → Bytes} (h : ∀ a, 0 < (g a).length) :
    l.length ≤ (l.flatMap g).length := by
  induction l with
  | nil => exact Nat.zero_le _
  | cons a l ih =>
      have hpos := h a
      simp only [List.flatMap_cons, List.length_append, List.length_cons]
      omega

theorem readStorePathSet_write {paths : Finset StorePath} (hsep : ∀ p ∈ paths, p.separator ≠ 0x2f)
    (hsize : (writeStorePathSet store paths).length < 2 ^ 64) (rest : Bytes) :
    readStorePathSet store (writeStorePathSet store paths ++ rest) = .ok (paths, rest) := by
  have hcount : (inOrder paths).length = paths.card := by
    rw [← Multiset.coe_card, coe_inOrder]
    rfl
  have htexts : ∀ p ∈ inOrder paths, (store.printStorePath p).length < 2 ^ 64 := by
    intro p hp
    have hle := length_le_flatMap (g := fun p => writeString (store.printStorePath p)) hp
    have hstring := length_le_writeString (store.printStorePath p)
    unfold writeStorePathSet at hsize
    rw [List.length_append] at hsize
    exact lt_of_le_of_lt (hstring.trans (hle.trans (Nat.le_add_left _ _))) hsize
  have hcard : paths.card < 2 ^ 64 := by
    have hle := count_le_flatMap (inOrder paths) fun p =>
      length_writeString_pos (store.printStorePath p)
    unfold writeStorePathSet at hsize
    rw [List.length_append] at hsize
    omega
  rw [readStorePathSet, writeStorePathSet, List.append_assoc,
    readNum_eq_ok.mpr ⟨hcard, rfl⟩, ok_bind]
  simp only
  rw [← hcount, readStorePathsLoop_write (fun p hp => hsep p (mem_inOrder.mp hp)) htexts,
    toFinset_inOrder]

variable (store) in
/-- The info that a record gives. -/
def recordInfo (nar : Bytes) (path : StorePath) (references : Finset StorePath)
    (deriver : Option StorePath) : ValidPathInfo where
  path := path
  deriver := deriver
  narHash := (store.hashString .sha256 nar).1
  references := references
  registrationTime := 0
  narSize := UInt64.ofNat nar.length
  ultimate := false
  sigs := ∅
  ca := none

variable (store) in
/-- A record that can be read back: its archive is that of a tree within the
    limits, no path in it has a slash in its name, and 64 bits are enough for
    every length. -/
structure Recordable (nar : Bytes) (path : StorePath) (references : Finset StorePath)
    (deriver : Option StorePath) : Prop where
  archive : ∃ f : File, f.WithinLimits narMaxDepth ∧
    dumpPath NarNode.plain defaultPathFilter f = .ok nar
  path_sep : path.separator ≠ 0x2f
  references_sep : ∀ q ∈ references, q.separator ≠ 0x2f
  deriver_sep : ∀ d ∈ deriver, d.separator ≠ 0x2f
  size : (recordBytes store nar path references deriver).length < 2 ^ 64

theorem printStorePath_ne_nil (p : StorePath) : store.printStorePath p ≠ [] := by
  simp [StoreDir.printStorePath, ascii]

theorem parseDeriver_text {deriver : Option StorePath} (h : ∀ d ∈ deriver, d.separator ≠ 0x2f) :
    parseDeriver store ((deriver.map store.printStorePath).getD []) = .ok deriver := by
  cases deriver with
  | none => rfl
  | some d =>
      show parseDeriver store (store.printStorePath d) = _
      rw [parseDeriver, if_pos (printStorePath_ne_nil d), store.parseStorePath_print (h d rfl)]
      rfl

/-- Everything that is written is read back, up to the check. -/
theorem parseRecord_recordBytes (check : StorePath → Hash → Except Error Unit) {nar : Bytes}
    {path : StorePath} {references : Finset StorePath} {deriver : Option StorePath}
    (h : Recordable store nar path references deriver) (rest : Bytes) :
    parseRecord store check (recordBytes store nar path references deriver ++ rest)
      = check path (store.hashString .sha256 nar).1 >>= fun _ =>
          .ok (recordInfo store nar path references deriver, nar, rest) := by
  have hsize := h.size
  unfold recordBytes at hsize
  simp only [List.length_append, writeNum_length] at hsize
  obtain ⟨f, hlimits, hdump⟩ := h.archive
  have hpath : (store.printStorePath path).length < 2 ^ 64 := by
    have hle := length_le_writeString (store.printStorePath path)
    omega
  have hderiver : ((deriver.map store.printStorePath).getD []).length < 2 ^ 64 := by
    have hle := length_le_writeString ((deriver.map store.printStorePath).getD [])
    omega
  have hset : (writeStorePathSet store references).length < 2 ^ 64 := by omega
  have hmagic : ∀ source, readInt (writeNum exportMagic ++ source) = .ok (exportMagic, source) :=
    fun source => readInt_eq_ok.mpr ⟨by decide, rfl⟩
  have hnosig : skipSignature (writeNum 0 ++ rest) = .ok rest := by
    rw [skipSignature, readInt_eq_ok.mpr ⟨by decide, rfl⟩]
    rfl
  simp only [parseRecord, recordBytes, List.append_assoc,
    skipDump_dump hlimits hdump (by omega), hmagic, readString_write hpath,
    store.parseStorePath_print h.path_sep, readStorePathSet_write h.references_sep hset,
    readString_write hderiver, parseDeriver_text h.deriver_sep, hnosig, ok_bind, throwIf, ne_eq,
    not_true_eq_false, if_false, pure_eq_ok, recordInfo]

end Codec

namespace DiskStore

variable (store : StoreDirConfig)

-- ============================================================================
-- Export
-- ============================================================================

/-- `Store::narFromPath`. -/
def narFromPath (path : StorePath) : DiskM Bytes := do
  let valid ← onStore (LocalStore.isValidPath store path)
  if valid then do
    let s ← get
    match s.tree path with
    | some f => fromExcept (dumpPath NarNode.plain defaultPathFilter f)
    | none => throw (.error s!"path '{showBytes (store.printStorePath path)}' does not exist")
  else throw (.invalidPath
    s!"path '{showBytes (store.printStorePath path)}' is not a valid store path")

/-- The check of `exportPath` that a path has not changed. -/
def checkUnchanged (path : StorePath) (info : ValidPathInfo) (nar : Bytes) : Except Error Unit :=
  let hash := (store.hashString .sha256 nar).1
  throwIf (¬ hash.equals info.narHash ∧ ¬ info.narHash.equals (Hash.zero info.narHash.algo)) (.error
    (s!"hash of path '{showBytes (store.printStorePath path)}' has changed from " ++
      s!"'{showBytes (info.narHash.toText .nix32 true)}' to " ++
      s!"'{showBytes (hash.toText .nix32 true)}'!"))

/-- `exportPath`: what it writes if it returns. -/
def exportPath (path : StorePath) : DiskM Bytes := do
  let info ← onStore (LocalStore.queryPathInfo store path)
  let nar ← narFromPath store path
  fromExcept (checkUnchanged store path info nar)
  pure (recordBytes store nar path info.references info.deriver)

/-- The loop of `exportPaths`. -/
def exportEach : List StorePath → DiskM Bytes
  | [] => pure (writeNum 0)
  | path :: rest => do
      let record ← exportPath store path
      let more ← exportEach rest
      pure (writeNum 1 ++ (record ++ more))

/-- `exportPaths`: what it writes if it returns. -/
def exportPaths (paths : Finset StorePath) : DiskM Bytes := do
  let sorted ← onStore (LocalStore.topoSortPaths store paths)
  exportEach store sorted.reverse

-- ============================================================================
-- Import
-- ============================================================================

/-- The loop that `importPaths` and `importVerified` have in common.  A round
    takes at least eight bytes off the source. -/
def importLoop (badStream : String) (check : StorePath → Hash → Except Error Unit) (now : Int) :
    Nat → Bytes → DiskM (List StorePath)
  | 0, _ => throw .endOfFile
  | rounds + 1, source => do
      let (n, source) ← fromExcept (readNum source)
      if n = 0 then pure []
      else do
        fromExcept (throwIf (n ≠ 1) (.error badStream))
        let (info, saved, source) ← fromExcept (parseRecord store check source)
        addToStore store now info saved false
        let res ← importLoop badStream check now rounds source
        pure (info.path :: res)

/-- `importPaths`. -/
def importPaths (now : Int) (source : Bytes) : DiskM (List StorePath) :=
  importLoop store "input doesn't look like something created by 'nix-store --export'"
    (fun _ _ => .ok ()) now (source.length + 1) source

/-- The check of `importVerified`. -/
def checkIntegrity (path : StorePath) (narHash : Hash) : Except Error Unit := do
  let expected ← store.makeFixedOutputPathFromCA path.name
    (.withoutRefs { method := .nixArchive, hash := narHash })
  throwIf (path ≠ expected) (.error
    (s!"integrity check failed: stream claims '{showBytes (store.printStorePath path)}' but its " ++
      s!"content hashes to '{showBytes (store.printStorePath expected)}' " ++
      "(corrupted or not a CA NixArchive path)"))

/-- `importVerified`. -/
def importVerified (now : Int) (source : Bytes) : DiskM (List StorePath) :=
  importLoop store "input doesn't look like an export-path stream" (checkIntegrity store) now
    (source.length + 1) source

-- ============================================================================
-- One import
-- ============================================================================

variable {store} {now : Int}

variable (store) in
/-- Nothing about the paths that were valid has changed. -/
structure Keeps (s s' : DiskStore) : Prop where
  row : ∀ p, s.db.Valid (store.printStorePath p) →
    s'.db.queryPathInfo (store.printStorePath p) = s.db.queryPathInfo (store.printStorePath p)
  refers : ∀ p, s.db.Valid (store.printStorePath p) → ∀ u,
    s'.db.Refers (store.printStorePath p) u ↔ s.db.Refers (store.printStorePath p) u
  tree : ∀ p, s.db.Valid (store.printStorePath p) → s'.tree p = s.tree p

theorem Keeps.refl (s : DiskStore) : Keeps store s s :=
  ⟨fun _ _ => rfl, fun _ _ _ => Iff.rfl, fun _ _ => rfl⟩

theorem Keeps.valid {s s' : DiskStore} (h : Keeps store s s') {p : StorePath}
    (hp : s.db.Valid (store.printStorePath p)) : s'.db.Valid (store.printStorePath p) := by
  rw [← Db.isSome_queryPathInfo, h.row p hp, Db.isSome_queryPathInfo]
  exact hp

theorem Keeps.trans {s s₁ s₂ : DiskStore} (h : Keeps store s s₁) (h' : Keeps store s₁ s₂) :
    Keeps store s s₂ where
  row := fun p hp => (h'.row p (h.valid hp)).trans (h.row p hp)
  refers := fun p hp u => (h'.refers p (h.valid hp) u).trans (h.refers p hp u)
  tree := fun p hp => (h'.tree p (h.valid hp)).trans (h.tree p hp)

variable (store) in
/-- An import without repair goes through and enters a path as new. -/
structure Registers (s : DiskStore) (info : ValidPathInfo) (saved : Bytes) : Prop where
  wanted : Wanted store s info.path false
  named : realName info.path ≠ none
  restored : ∃ f nar, NixStore.restorePath saved = (some f, .ok nar) ∧
    checkImport store info nar (some f) = .ok ()
  accepts : LocalStore.Accepts store s.db (.single info)

variable (store now) in
/-- A path as an import has entered it. -/
structure Entered (s : DiskStore) (info : ValidPathInfo) (saved : Bytes) : Prop where
  row : ∃ id, s.db.queryPathInfo (store.printStorePath info.path)
    = some { LocalStore.columns store now info with id }
  refers : ∀ u, s.db.Refers (store.printStorePath info.path) u ↔
    ∃ q ∈ info.references, u = store.printStorePath q
  tree : ∃ f nar, NixStore.restorePath saved = (some f, .ok nar) ∧
    (store.hashString .sha256 nar).1 = info.narHash ∧ s.tree info.path = some f

theorem Registers.new {s : DiskStore} {info : ValidPathInfo} {saved : Bytes}
    (h : Registers store s info saved) : ¬ s.db.Valid (store.printStorePath info.path) := by
  rcases h.wanted with hrepair | ⟨-, hnew⟩
  · cases hrepair
  · exact hnew

theorem Entered.valid {s : DiskStore} {info : ValidPathInfo} {saved : Bytes}
    (h : Entered store now s info saved) : s.db.Valid (store.printStorePath info.path) := by
  obtain ⟨id, hrow⟩ := h.row
  exact Db.valid_of_query hrow

theorem Entered.keep {s s' : DiskStore} {info : ValidPathInfo} {saved : Bytes}
    (h : Entered store now s info saved) (hkeep : Keeps store s s') :
    Entered store now s' info saved where
  row := by
    rw [hkeep.row _ h.valid]
    exact h.row
  refers := fun u => (hkeep.refers _ h.valid u).trans (h.refers u)
  tree := by
    obtain ⟨f, nar, hrestore, hhash, htree⟩ := h.tree
    exact ⟨f, nar, hrestore, hhash, (hkeep.tree _ h.valid).trans htree⟩

/-- What was registered can be queried. -/
theorem reads_of_row {s : DiskStore} {info : ValidPathInfo}
    (hrow : ∃ id, s.db.queryPathInfo (store.printStorePath info.path)
      = some { LocalStore.columns store now info with id })
    (hrefers : ∀ u, s.db.Refers (store.printStorePath info.path) u ↔
      ∃ q ∈ info.references, u = store.printStorePath q)
    (hsigs : ∀ sig ∈ info.sigs, sig.Listable)
    (hrefs : ∀ q ∈ info.references, LocalStore.Readable q)
    (hderiver : ∀ d, info.deriver = some d → LocalStore.Readable d) :
    ∃ info', LocalStore.queryPathInfoInternal store s.db info.path = .ok (some info') ∧
      info'.Same info := by
  obtain ⟨id, hrow⟩ := hrow
  refine (LocalStore.internal_same_iff hrow rfl rfl rfl rfl rfl).mpr
    ⟨(LocalStore.readDeriver_column store info).mpr hderiver, hsigs, ?_⟩
  obtain ⟨hmem, -⟩ := Db.queryPathInfo_eq_some.mp hrow
  have hreferences : ∀ t, t ∈ s.db.queryReferences id ↔
      ∃ q ∈ info.references, t = store.printStorePath q :=
    fun t => (Db.mem_queryReferences hmem).trans (hrefers t)
  have hback : ∀ q ∈ info.references, store.parseStorePath
      (LocalStore.cString (store.printStorePath q)) = .ok q :=
    fun q hq => (LocalStore.parse_cString_print store.toStoreDir q q).mpr ⟨hrefs q hq, rfl⟩
  show LocalStore.readStorePaths store (s.db.queryReferences id) = _
  rw [LocalStore.readStorePaths_eq_ok]
  simp only [hreferences]
  refine ⟨?_, fun q hq => ⟨_, ⟨q, hq, rfl⟩, hback q hq⟩⟩
  rintro t ⟨q, hq, rfl⟩
  exact ⟨q, hq, hback q hq⟩

theorem Entered.reads {s : DiskStore} {info : ValidPathInfo} {saved : Bytes}
    (h : Entered store now s info saved) (hsigs : ∀ sig ∈ info.sigs, sig.Listable)
    (hrefs : ∀ q ∈ info.references, LocalStore.Readable q)
    (hderiver : ∀ d, info.deriver = some d → LocalStore.Readable d) :
    ∃ info', LocalStore.queryPathInfoInternal store s.db info.path = .ok (some info') ∧
      info'.Same info :=
  reads_of_row h.row h.refers hsigs hrefs hderiver

/-- A record of a path that is not there yet is entered if its references are
    there. -/
theorem registers_record {s : DiskStore} {nar : Bytes} {path : StorePath}
    {references : Finset StorePath} {deriver : Option StorePath}
    (hwanted : Wanted store s path false) (hnamed : realName path ≠ none)
    (harchive : ∃ f : File, f.WithinLimits narMaxDepth ∧
      dumpPath NarNode.plain defaultPathFilter f = .ok nar)
    (hrefs : ∀ q ∈ references, s.db.Valid (store.printStorePath q) ∨ q = path) :
    Registers store s (recordInfo store nar path references deriver) nar := by
  obtain ⟨f, hlimits, hdump⟩ := harchive
  have hrestore : NixStore.restorePath nar = (some f, .ok nar) :=
    restorePath_eq_ok.mpr ⟨f, rfl, hlimits, hdump, List.prefix_rfl⟩
  have hcheck : checkImport store (recordInfo store nar path references deriver) nar (some f)
      = .ok () := by
    have hnarHash : checkNarHash store (recordInfo store nar path references deriver) nar
        = .ok () := if_neg (not_not.mpr (Hash.equals_self _))
    have hnarSize : checkNarSize store (recordInfo store nar path references deriver) nar
        = .ok () := if_neg (not_not.mpr rfl)
    rw [checkImport, hnarHash, hnarSize]
    rfl
  refine ⟨hwanted, hnamed, ⟨f, nar, hrestore, hcheck⟩, ?_, ?_⟩
  · intro i hi
    rw [List.mem_singleton.mp hi]
    unfold LocalStore.passes LocalStore.checkContentAddressed
    rw [show (recordInfo store nar path references deriver).narHash.algo = .sha256 from
      (store.hashString .sha256 nar).2,
      if_pos (show (recordInfo store nar path references deriver).ca = none from rfl)]
    simp [Except.isOk, Except.toBool]
  · intro i hi q hq
    rw [List.mem_singleton.mp hi] at hq
    refine (hrefs q hq).imp_right ?_
    rintro rfl
    exact ValidPathInfos.mem_paths.mpr ⟨_, List.mem_singleton.mpr rfl, rfl⟩

/-- A path that does not refer to anything yet, because it is not there. -/
theorem not_refers_of_not_valid {db : Db} {t u : Bytes} (h : ¬ db.Valid t) : ¬ db.Refers t u := by
  rintro ⟨r, hr, r', -, hpath, -⟩
  exact h ⟨r, hr, hpath⟩

theorem checkImport_hash {info : ValidPathInfo} {nar : Bytes} {tree : Option File}
    (hsha : info.narHash.algo = .sha256) (h : checkImport store info nar tree = .ok ()) :
    (store.hashString .sha256 nar).1 = info.narHash := by
  simp only [checkImport, checkNarHash, NixStore.bind_eq_ok, throwIf_eq_ok, not_not] at h
  obtain ⟨_, hhash, -⟩ := h
  exact (Hash.equals_iff_eq ((store.hashString .sha256 nar).2.trans hsha.symm)).mp hhash

/-- The references after one info has been registered. -/
theorem refers_single {db db' : Db} {info : ValidPathInfo}
    (hdb : LocalStore.Committed store now db (.single info) db') (t u : Bytes) :
    db'.Refers t u ↔ db.Refers t u ∨
      (t = store.printStorePath info.path ∧ ∃ q ∈ info.references, u = store.printStorePath q) := by
  rw [hdb.refers]
  refine or_congr_right ⟨?_, ?_⟩
  · rintro ⟨i, hi, ht, hq⟩
    rw [List.mem_singleton.mp hi] at ht hq
    exact ⟨ht, hq⟩
  · rintro ⟨ht, hq⟩
    exact ⟨info, List.mem_singleton.mpr rfl, ht, hq⟩

theorem refers_single_new {db db' : Db} {info : ValidPathInfo}
    (hdb : LocalStore.Committed store now db (.single info) db')
    (hnew : ¬ db.Valid (store.printStorePath info.path)) (u : Bytes) :
    db'.Refers (store.printStorePath info.path) u ↔
      ∃ q ∈ info.references, u = store.printStorePath q := by
  rw [refers_single hdb]
  constructor
  · rintro (hold | ⟨-, hq⟩)
    · exact absurd hold (not_refers_of_not_valid hnew)
    · exact hq
  · exact fun hq => Or.inr ⟨rfl, hq⟩

/-- What an import that goes through leaves. -/
theorem Imported.entered {s s₁ s' : DiskStore} {info : ValidPathInfo} {saved : Bytes}
    (hnew : ¬ s.db.Valid (store.printStorePath info.path)) (hsame : SameContents s s₁)
    (h : Imported store now s₁ info saved s') :
    Keeps store s s' ∧ Entered store now s' info saved ∧
      ∀ t, s'.db.Valid t ↔ s.db.Valid t ∨ t = store.printStorePath info.path := by
  obtain ⟨f, nar, hrestore, hcheck⟩ := h.restored
  have hdb := h.committed
  rw [hsame.db_eq] at hdb
  have hone : ∀ i ∈ (ValidPathInfos.single info).infos, i = info :=
    fun i hi => List.mem_singleton.mp hi
  have hrefers := refers_single hdb
  have hother : ∀ p, s.db.Valid (store.printStorePath p) →
      store.printStorePath info.path ≠ store.printStorePath p := by
    intro p hp heq
    rw [← heq] at hp
    exact hnew hp
  refine ⟨⟨?_, ?_, ?_⟩, ⟨?_, ?_, ?_⟩, ?_⟩
  · intro p hp
    refine hdb.other _ fun i hi => ?_
    rw [hone i hi]
    exact hother p hp
  · intro p hp u
    rw [hrefers]
    exact or_iff_left fun h => hother p hp h.1.symm
  · intro p hp
    rw [h.tree_eq p, if_neg fun hand => hother p hp (by rw [hand.1]), hsame.tree_eq]
  · exact hdb.added info (List.mem_singleton.mpr rfl) hnew
  · exact refers_single_new hdb hnew
  · have hsha := h.accepts.sha256 (List.mem_singleton.mpr rfl)
    refine ⟨f, nar, hrestore, checkImport_hash hsha hcheck, ?_⟩
    rw [h.tree_eq, if_pos ⟨rfl, h.named⟩, hrestore]
  · intro t
    rw [hdb.valid]
    refine or_congr_right ⟨?_, ?_⟩
    · rintro ⟨i, hi, rfl⟩
      rw [hone i hi]
    · rintro rfl
      exact ⟨info, List.mem_singleton.mpr rfl, rfl⟩

/-- An import without repair leaves what is valid alone, and enters its path
    exactly if it goes through. -/
theorem addToStore_step (info : ValidPathInfo) (saved : Bytes) (s : DiskStore) :
    Run s (addToStore store now info saved false)
      (fun _ s' => Keeps store s s' ∧
        (Registers store s info saved → Entered store now s' info saved) ∧
        ∀ t, s'.db.Valid t ↔
          s.db.Valid t ∨ (Registers store s info saved ∧ t = store.printStorePath info.path))
      (fun _ s' => Keeps store s s' ∧ ¬ Registers store s info saved ∧
        ∀ t, s'.db.Valid t ↔ s.db.Valid t) := by
  refine (addToStore_outcome info saved false s).weaken (fun _ h => h) ?_ ?_
  · rintro _ s' hadded
    cases hadded with
    | skipped _ hseems hsame =>
        have hno : ¬ Registers store s info saved := by
          intro h
          rcases h.wanted with hrepair | ⟨hnot, -⟩
          · cases hrepair
          · exact hnot hseems
        refine ⟨⟨?_, ?_, fun p _ => hsame.tree_eq p⟩, fun h => absurd h hno, ?_⟩
        · intro p _
          rw [hsame.db_eq]
        · intro p _ u
          rw [hsame.db_eq]
        · intro t
          rw [hsame.db_eq]
          exact (or_iff_left fun h => hno h.1).symm
    | valid _ _ hvalid hdb hfiles _ =>
        have hno : ¬ Registers store s info saved := fun h => h.new hvalid
        refine ⟨⟨?_, ?_, ?_⟩, fun h => absurd h hno, ?_⟩
        · intro p _
          rw [hdb]
        · intro p _ u
          rw [hdb]
        · intro p _
          rw [DiskStore.tree, DiskStore.tree, hfiles]
        · intro t
          rw [hdb]
          exact (or_iff_left fun h => hno h.1).symm
    | imported s₁ hwanted hsame himported =>
        have hnew : ¬ s.db.Valid (store.printStorePath info.path) := by
          rcases hwanted with hrepair | ⟨-, hnew⟩
          · cases hrepair
          · exact hnew
        have hregisters : Registers store s info saved := by
          refine ⟨hwanted, himported.named, himported.restored, ?_⟩
          rw [← hsame.db_eq]
          exact himported.accepts
        obtain ⟨hkeep, hentered, hvalid⟩ := himported.entered hnew hsame
        refine ⟨hkeep, fun _ => hentered, fun t => (hvalid t).trans ?_⟩
        exact or_congr_right (and_iff_right hregisters).symm
  · rintro e s' ⟨hwanted, hdb, htrees, hwhy⟩
    have hnew : ¬ s.db.Valid (store.printStorePath info.path) := by
      rcases hwanted with hrepair | ⟨-, hnew⟩
      · cases hrepair
      · exact hnew
    refine ⟨⟨?_, ?_, ?_⟩, fun h => hwhy ⟨h.named, h.restored, h.accepts⟩, ?_⟩
    · intro p _
      rw [hdb]
    · intro p _ u
      rw [hdb]
    · intro p hp
      refine (htrees p).trans (if_neg ?_)
      rintro ⟨rfl, -⟩
      exact hnew hp
    · intro t
      rw [hdb]

-- ============================================================================
-- Runs of the import loop
-- ============================================================================

/-- A call of `addToStore` in an import loop: the state before it, and what it
    is called with. -/
structure ImportStep where
  before : DiskStore
  info : ValidPathInfo
  saved : Bytes

variable (store) in
/-- The calls of `addToStore` that an import loop makes. -/
def importSteps (check : StorePath → Hash → Except Error Unit) (now : Int) :
    Nat → Bytes → DiskStore → List ImportStep
  | 0, _, _ => []
  | rounds + 1, source, s =>
      match readNum source with
      | .ok (1, source) =>
          match parseRecord store check source with
          | .ok (info, saved, source) =>
              { before := s, info, saved } ::
                (match addToStore store now info saved false s with
                | .ok _ s => importSteps check now rounds source s
                | .error _ _ => [])
          | .error _ => []
      | _ => []

/-- What holds of every record that has been read. -/
theorem parseRecord_eq_ok {check : StorePath → Hash → Except Error Unit} {source saved rest : Bytes}
    {info : ValidPathInfo} (h : parseRecord store check source = .ok (info, saved, rest)) :
    check info.path info.narHash = .ok () ∧ info.narHash = (store.hashString .sha256 saved).1 := by
  simp only [parseRecord, NixStore.bind_eq_ok, Prod.exists, pure_eq_ok] at h
  obtain ⟨_, _, -, _, _, -, _, -, _, _, -, _, -, _, _, -, _, _, -, _, hcheck, _, -, _, -, heq⟩ := h
  cases heq
  exact ⟨hcheck, rfl⟩

variable (store now) in
/-- What a run of an import loop has done, by its calls of `addToStore`. -/
structure Ran (check : StorePath → Hash → Except Error Unit) (s : DiskStore)
    (steps : List ImportStep) (s' : DiskStore) : Prop where
  keeps : Keeps store s s'
  valid : ∀ t, s'.db.Valid t ↔ s.db.Valid t ∨
    ∃ step ∈ steps, Registers store step.before step.info step.saved ∧
      t = store.printStorePath step.info.path
  entered : ∀ step ∈ steps, Registers store step.before step.info step.saved →
    Entered store now s' step.info step.saved ∧
      ¬ s.db.Valid (store.printStorePath step.info.path)
  checked : ∀ step ∈ steps, check step.info.path step.info.narHash = .ok ()

theorem Ran.nil {check : StorePath → Hash → Except Error Unit} (s : DiskStore) :
    Ran store now check s [] s where
  keeps := Keeps.refl s
  valid := fun t => (or_iff_left (by rintro ⟨step, hstep, -⟩; cases hstep)).symm
  entered := fun step hstep => absurd hstep List.not_mem_nil
  checked := fun step hstep => absurd hstep List.not_mem_nil

/-- A call in front of a run. -/
theorem Ran.cons {check : StorePath → Hash → Except Error Unit} {s s₁ s' : DiskStore}
    {info : ValidPathInfo} {saved : Bytes} {steps : List ImportStep} (hkeep : Keeps store s s₁)
    (hentered : Registers store s info saved → Entered store now s₁ info saved)
    (hvalid : ∀ t, s₁.db.Valid t ↔
      s.db.Valid t ∨ (Registers store s info saved ∧ t = store.printStorePath info.path))
    (hcheck : check info.path info.narHash = .ok ()) (h : Ran store now check s₁ steps s') :
    Ran store now check s ({ before := s, info, saved } :: steps) s' where
  keeps := hkeep.trans h.keeps
  valid := by
    intro t
    rw [h.valid, hvalid, or_assoc]
    refine or_congr_right ⟨?_, ?_⟩
    · rintro (⟨hregisters, rfl⟩ | ⟨step, hstep, hrest⟩)
      · exact ⟨_, List.mem_cons_self, hregisters, rfl⟩
      · exact ⟨step, List.mem_cons_of_mem _ hstep, hrest⟩
    · rintro ⟨step, hstep, hrest⟩
      rcases List.mem_cons.mp hstep with rfl | hstep
      · exact Or.inl hrest
      · exact Or.inr ⟨step, hstep, hrest⟩
  entered := by
    intro step hstep hregisters
    rcases List.mem_cons.mp hstep with rfl | hstep
    · exact ⟨(hentered hregisters).keep h.keeps, hregisters.new⟩
    · obtain ⟨hdone, hnew⟩ := h.entered step hstep hregisters
      exact ⟨hdone, fun hold => hnew (hkeep.valid hold)⟩
  checked := by
    intro step hstep
    rcases List.mem_cons.mp hstep with rfl | hstep
    · exact hcheck
    · exact h.checked step hstep

section Loop

variable {badStream : String} {check : StorePath → Hash → Except Error Unit} {rounds : Nat}
  {source source' rest saved : Bytes} {info : ValidPathInfo} {s : DiskStore}

/-- A round that gets as far as `addToStore`. -/
theorem importLoop_record (hnum : readNum source = .ok (1, source'))
    (hrecord : parseRecord store check source' = .ok (info, saved, rest)) :
    importLoop store badStream check now (rounds + 1) source s
      = (addToStore store now info saved false >>= fun _ =>
          importLoop store badStream check now rounds rest >>= fun res =>
            pure (info.path :: res)) s := by
  rw [importLoop, bind_of_ok (by rw [hnum, fromExcept_ok])]
  simp only
  rw [if_neg (by decide), bind_of_ok (by rw [throwIf, if_neg (by decide), fromExcept_ok]),
    bind_of_ok (by rw [hrecord, fromExcept_ok])]

theorem importSteps_record (hnum : readNum source = .ok (1, source'))
    (hrecord : parseRecord store check source' = .ok (info, saved, rest)) :
    importSteps store check now (rounds + 1) source s
      = { before := s, info, saved } ::
          (match addToStore store now info saved false s with
          | .ok _ s => importSteps store check now rounds rest s
          | .error _ _ => []) := by
  rw [importSteps, hnum]
  simp only [hrecord]

/-- The end of a stream. -/
theorem importSteps_end : importSteps store check now rounds (writeNum 0) s = [] := by
  cases rounds with
  | zero => rfl
  | succ rounds => rfl

/-- Every other round ends the loop without having done anything. -/
theorem importLoop_stop
    (h : ¬ ∃ source' r, readNum source = .ok (1, source') ∧ parseRecord store check source' = .ok r) :
    importSteps store check now (rounds + 1) source s = [] ∧
      final (importLoop store badStream check now (rounds + 1) source) s = s := by
  unfold importSteps importLoop
  cases hnum : readNum source with
  | error e => exact ⟨rfl, rfl⟩
  | ok r =>
      obtain ⟨n, source'⟩ := r
      by_cases hone : n = 1
      · subst hone
        cases hrecord : parseRecord store check source' with
        | ok r => exact absurd ⟨source', r, hnum, hrecord⟩ h
        | error e =>
            refine ⟨by simp only [hrecord], ?_⟩
            unfold final
            rw [bind_of_ok (fromExcept_ok _ s)]
            simp only
            rw [if_neg (by decide),
              bind_of_ok (by rw [throwIf, if_neg (by decide), fromExcept_ok]),
              bind_of_error (by rw [hrecord, fromExcept_error])]
      · refine ⟨?_, ?_⟩
        · split
          · next heq => exact absurd (congrArg Prod.fst (Except.ok.inj heq)) hone
          · rfl
        · unfold final
          rw [bind_of_ok (fromExcept_ok _ s)]
          simp only
          by_cases hzero : n = 0
          · rw [if_pos hzero]
            rfl
          · rw [if_neg hzero, bind_of_error (by rw [throwIf, if_pos hone, fromExcept_error])]

variable (badStream check rounds source s) in
/-- A run of an import loop, whether it returns or throws. -/
theorem importLoop_ran :
    Ran store now check s (importSteps store check now rounds source s)
      (final (importLoop store badStream check now rounds source) s) := by
  induction rounds generalizing source s with
  | zero => exact Ran.nil s
  | succ rounds ih =>
      by_cases hround : ∃ source' r, readNum source = .ok (1, source') ∧
          parseRecord store check source' = .ok r
      · obtain ⟨source', ⟨info, saved, rest⟩, hnum, hrecord⟩ := hround
        obtain ⟨hcheck, -⟩ := parseRecord_eq_ok hrecord
        have hstep : Run s (addToStore store now info saved false) _ _ := addToStore_step info saved s
        rw [importSteps_record hnum hrecord]
        unfold final
        rw [importLoop_record hnum hrecord, bind_run]
        cases hadd : addToStore store now info saved false s with
        | error e s₁ =>
            obtain ⟨hkeep, hno, hvalid⟩ := hstep.of_error rfl hadd
            refine Ran.cons hkeep (fun h => absurd h hno) (fun t => ?_) hcheck (Ran.nil s₁)
            exact (hvalid t).trans (or_iff_left fun h => hno h.1).symm
        | ok u s₁ =>
            obtain ⟨hkeep, hentered, hvalid⟩ := hstep.of_ok rfl hadd
            have hrest := Ran.cons hkeep hentered hvalid hcheck (ih rest s₁)
            simp only
            rw [bind_run]
            unfold final at hrest
            cases hloop : importLoop store badStream check now rounds rest s₁ with
            | ok res s' =>
                rw [hloop] at hrest
                exact hrest
            | error e s' =>
                rw [hloop] at hrest
                exact hrest
      · obtain ⟨hsteps, hfinal⟩ : importSteps store check now (rounds + 1) source s = [] ∧
            final (importLoop store badStream check now (rounds + 1) source) s = s :=
          importLoop_stop hround
        rw [hsteps, hfinal]
        exact Ran.nil s

end Loop

end DiskStore
end NixStore
