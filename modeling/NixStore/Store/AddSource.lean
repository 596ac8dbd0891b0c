/-
  NixStore.Store.AddSource

  The three functions that take a source tree: `StoreDirConfig::computeStorePath`
  (`libstore/store-dir-config.cc`), and `Store::addToStore` and
  `Store::addToStoreSlow` (`libstore/store-api.cc`).

  The first hashes the tree.  The second dumps it into `addToStoreFromDump`,
  through a sink that starts its reader with the first byte it is given.  The
  third parses the dump on its way and imports a second one.

  Warnings about large paths are left out.
-/

import NixStore.Store.AddFromDump
import NixStore.Store.HashModulo
import NixStore.Util.NarCalls
import NixStore.Util.NarSkip

namespace NixStore

open Effect Wire NarNode

-- ============================================================================
-- The functions
-- ============================================================================

/-- `RegularFileSink`, with what it has passed on to its sink. -/
structure RegularFileSink where
  sink : Bytes
  regular : Bool

/-- The member functions of `RegularFileSink`.  Nothing throws. -/
def regularFileSink : FileSystemObjectSink RegularFileSink where
  skipContents := false
  createDirectory _ st := .ok { st with regular := false }
  createRegularFile _ st := .ok st
  isExecutable _ st := .ok st
  preallocateContents _ _ st := .ok st
  write _ data st := .ok { st with sink := st.sink ++ data }
  finishRegularFile _ st := .ok st
  createSymlink _ _ st := .ok { st with regular := false }

/-- How a buffered sink hands on what is written to it: in pieces that are not
    empty. -/
structure Cutting where
  pieces : Bytes → List Bytes
  flatten_pieces : ∀ b, (pieces b).flatten = b
  ne_nil : ∀ b, [] ∉ pieces b

/-- The cast from `FileIngestionMethod`. -/
def FileIngestionMethod.toSerialisation : FileIngestionMethod → FileSerialisationMethod
  | .flat => .flat
  | .nixArchive => .nixArchive

namespace Store

open DiskStore (dumpFile wanted addToStoreFromDump)

variable (store : StoreDirConfig)

/-- `hashPath(path, method, ht)`. -/
def hashPath (path : File) (method : FileIngestionMethod) (ht : HashAlgorithm) :
    Except Error Hash := do
  let dump ← dumpFile method path
  pure (store.hashString ht dump).1

/-- `StoreDirConfig::computeStorePath`. -/
def computeStorePath (name : Bytes) (path : File) (method : ContentAddressMethod)
    (hashAlgo : HashAlgorithm) (references : Finset StorePath) :
    Except Error (StorePath × Hash) := do
  let h ← hashPath store path method.getFileIngestionMethod hashAlgo
  let ca ← ContentAddressWithReferences.fromParts method h { others := references, self := false }
  let storePath ← store.makeFixedOutputPathFromCA name ca
  pure (storePath, h)

/-- `Store::addToStore` of a source path.  The sink made by `sourceToSink`
    calls its reader when it gets its first bytes; without any,
    `storePath.value()` has nothing to return. -/
def addToStore (cutting : Cutting) (now : Int) (narBufferSize : Nat) (turns : List Nat)
    (name : Bytes) (path : File) (method : ContentAddressMethod) (hashAlgo : HashAlgorithm)
    (references : Finset StorePath) (repair : Bool) : DiskM StorePath := do
  let fsm := method.getFileIngestionMethod.toSerialisation
  let dump ← fromExcept (dumpFile method.getFileIngestionMethod path)
  match cutting.pieces dump with
  | [] => throw (.error "bad optional access")
  | piece :: rest =>
      addToStoreFromDump store now narBufferSize (piece :: rest) turns name fsm method hashAlgo
        references repair

/-- What one pass over the dump yields in `addToStoreSlow`: the part that the
    parser read, and the hash for the content address. -/
def slowHashes (method : ContentAddressMethod) (hashAlgo : HashAlgorithm) (dump : Bytes) :
    Except Error (Bytes × Hash) :=
  match method.getFileIngestionMethod with
  | .flat => do
      let (rest, fileSink) ← parseDump plain regularFileSink dump { sink := [], regular := true }
      pure (dump.take (dump.length - rest.length), (store.hashString hashAlgo fileSink.sink).1)
  | .nixArchive => do
      let (rest, _) ← parseDump plain nullFileSystemObjectSink dump ()
      let tapped := dump.take (dump.length - rest.length)
      pure (tapped, (store.hashString hashAlgo tapped).1)

/-- `expectedCAHash && expectedCAHash != hash`. -/
def checkExpectedHash (expectedCAHash : Option Hash) (hash : Hash) : Except Error Unit :=
  match expectedCAHash with
  | none => .ok ()
  | some expected =>
      throwIf (¬ expected.equals hash) (.error "hash mismatch for the source path")

/-- The info that `addToStoreSlow` computes. -/
def slowInfo (name : Bytes) (srcPath : File) (method : ContentAddressMethod)
    (hashAlgo : HashAlgorithm) (references : Finset StorePath) (expectedCAHash : Option Hash) :
    Except Error (ValidPathInfo × Bytes) := do
  let dump ← dumpPath plain defaultPathFilter srcPath
  let (tapped, hash) ← slowHashes store method hashAlgo dump
  checkExpectedHash expectedCAHash hash
  let ca ← ContentAddressWithReferences.fromParts method hash
    { others := references, self := false }
  let info ← ValidPathInfo.makeFromCA store name ca (store.hashString .sha256 tapped).1
  pure ({ info with narSize := UInt64.ofNat tapped.length }, dump)

/-- `Store::addToStoreSlow`, on a `LocalStore`. -/
def addToStoreSlow (now : Int) (name : Bytes) (srcPath : File) (method : ContentAddressMethod)
    (hashAlgo : HashAlgorithm) (references : Finset StorePath) (expectedCAHash : Option Hash) :
    DiskM ValidPathInfo := do
  let (info, dump) ← fromExcept
    (slowInfo store name srcPath method hashAlgo references expectedCAHash)
  if ← wanted store false info.path then
    DiskStore.addToStore store now info dump false
  pure info

end Store

-- ============================================================================
-- Trees that are dumped
-- ============================================================================

mutual

/-- A tree that is legal but for its depth is not too deep if it is dumped. -/
theorem withinLimits_of_dump : ∀ {f : File} {levels : Nat} {path : NodePath} {depth : Nat}
    {b : Bytes}, f.WithinLimits levels → dump plain defaultPathFilter f path depth = .ok b →
    f.WithinLimits (narMaxDepth - depth)
  | .regular e c, levels, path, depth, b, h, hdump => by
      simp only [dump, bind_eq_ok, throwIf_eq_ok] at hdump
      obtain ⟨-, hdepth, -⟩ := hdump
      exact ⟨by omega, h.2⟩
  | .symlink t, levels, path, depth, b, h, hdump => by
      simp only [dump, bind_eq_ok, throwIf_eq_ok] at hdump
      obtain ⟨-, hdepth, -⟩ := hdump
      exact ⟨by omega, h.2⟩
  | .directory es, levels, path, depth, b, h, hdump => by
      obtain ⟨-, hasc, hes⟩ := h
      have hnames : SortedMap.Ascending (dumpNodes plain defaultPathFilter es path depth) := by
        rw [ascending_iff_names, dumpNodes_names, ← ascending_iff_names]
        exact hasc
      simp only [dump, bind_eq_ok, throwIf_eq_ok] at hdump
      obtain ⟨-, hdepth, unhacked, hunhack, body, hbody, -⟩ := hdump
      rw [unhack_plain path hnames fun a ha => absurd ha List.not_mem_nil] at hunhack
      cases hunhack
      rw [List.nil_append] at hbody
      refine ⟨by omega, hasc, ?_⟩
      rw [Nat.sub_sub]
      exact entriesWithinLimits_of_dump hes hbody

theorem entriesWithinLimits_of_dump : ∀ {es : List (Bytes × File)} {levels : Nat}
    {path : NodePath} {depth : Nat} {b : Bytes}, File.EntriesWithinLimits levels es →
    dumpEntries defaultPathFilter path
      ((dumpNodes plain defaultPathFilter es path depth).map fun e => (e.1, e.1, e.2)) = .ok b →
    File.EntriesWithinLimits (narMaxDepth - (depth + 1)) es
  | [], _, _, _, _, _, _ => trivial
  | (name, f) :: rest, levels, path, depth, b, h, hdump => by
      obtain ⟨hlen, hname, hf, hrest⟩ := h
      simp only [dumpNodes, List.map_cons, dumpEntries, defaultPathFilter, if_true,
        bind_eq_ok] at hdump
      obtain ⟨node, hnode, tail, htail, -⟩ := hdump
      exact ⟨hlen, hname, withinLimits_of_dump hf hnode, entriesWithinLimits_of_dump hrest htail⟩

end

/-- A tree that a file system can hold, however deep.  Sizes are signed. -/
structure OnDisk (f : File) : Prop where
  limits : ∃ levels, f.WithinLimits levels
  sizes : HashModulo.FilesShorterThan (2 ^ 63) f

theorem OnDisk.withinLimits {f : File} (h : OnDisk f) {nar : Bytes}
    (hdump : dumpPath plain defaultPathFilter f = .ok nar) : f.WithinLimits narMaxDepth := by
  obtain ⟨levels, hlim⟩ := h.limits
  obtain ⟨body, hbody, -⟩ := bind_eq_ok.mp hdump
  exact withinLimits_of_dump hlim hbody

theorem OnDisk.alignable {f : File} (h : OnDisk f) : f.toNar.Alignable :=
  h.sizes.weaken fun contents _ (hlt : contents.length < 2 ^ 63) => by
    show contents.length ≤ 2 ^ 64 - 8
    omega

/-- The dump of a tree is unpacked again. -/
theorem restorePath_dump {f : File} {nar : Bytes} (hlim : f.WithinLimits narMaxDepth)
    (hdump : dumpPath plain defaultPathFilter f = .ok nar) :
    restorePath nar = (some f, .ok nar) :=
  restorePath_eq_ok.mpr ⟨f, rfl, hlim, hdump, List.prefix_rfl⟩

-- ============================================================================
-- One pass over the dump
-- ============================================================================

/-- The contents of all regular files of a tree. -/
def File.contents (f : File) : Bytes := (f.toNar.files.map (·.2)).flatten

mutual

/-- The sink gets the contents of every regular file. -/
theorem runCalls_regularFileSink : ∀ (path : NodePath) (x : NarNode) (st : RegularFileSink),
    ∃ regular, runCalls regularFileSink (calls path x) st
      = .ok ⟨st.sink ++ (x.files.map (·.2)).flatten, regular⟩
  | path, .directory es, st => by
      rw [calls, runCalls]
      exact runCalls_regularFileSink_entries path es { st with regular := false }
  | path, .symlink t, st => by
      refine ⟨false, ?_⟩
      rw [calls, runCalls_singleton, files, List.map_nil, List.flatten_nil, List.append_nil]
      rfl
  | path, .regular e c p, st => by
      have hwrites : ∀ (l : List Bytes) (st : RegularFileSink),
          runCalls regularFileSink (l.map (.write path)) st
            = .ok { st with sink := st.sink ++ l.flatten } := by
        intro l
        induction l with
        | nil =>
            intro st
            rw [List.flatten_nil, List.append_nil]
            rfl
        | cons data l ih =>
            intro st
            rw [List.map_cons, runCalls]
            show runCalls regularFileSink (l.map (.write path))
              { st with sink := st.sink ++ data } = _
            rw [ih, List.flatten_cons, List.append_assoc]
      refine ⟨st.regular, ?_⟩
      have hmark : runCalls regularFileSink (if e then [.isExecutable path] else []) st = .ok st := by
        cases e with
        | true => rfl
        | false => rfl
      rw [calls, regularCalls, runCalls]
      show runCalls regularFileSink ((if e then [.isExecutable path] else []) ++ _) st = _
      rw [runCalls_append, hmark, ok_bind, runCalls]
      show runCalls regularFileSink ((chunks c.length c).map (.write path) ++
        [.finishRegularFile path]) st = _
      rw [runCalls_append, hwrites, ok_bind, runCalls_singleton, flatten_chunks le_rfl, files,
        List.map_singleton, List.flatten_singleton]
      rfl

theorem runCalls_regularFileSink_entries : ∀ (path : NodePath) (es : List (Bytes × NarNode))
    (st : RegularFileSink), ∃ regular, runCalls regularFileSink (callsEntries path es) st
      = .ok ⟨st.sink ++ ((filesEntries es).map (·.2)).flatten, regular⟩
  | path, [], st => by
      refine ⟨st.regular, ?_⟩
      rw [filesEntries, List.map_nil, List.flatten_nil, List.append_nil]
      rfl
  | path, (name, x) :: rest, st => by
      obtain ⟨regular, hnode⟩ := runCalls_regularFileSink (path ++ [name]) x st
      obtain ⟨regular', hrest⟩ := runCalls_regularFileSink_entries path rest
        ⟨st.sink ++ (x.files.map (·.2)).flatten, regular⟩
      refine ⟨regular', ?_⟩
      rw [callsEntries, runCalls_append, hnode, ok_bind, hrest, filesEntries, List.map_append,
        List.flatten_append, List.append_assoc]

end

/-- What is hashed for the content address. -/
def hashedBytes (method : FileIngestionMethod) (f : File) (nar : Bytes) : Bytes :=
  match method with
  | .flat => f.contents
  | .nixArchive => nar

namespace Store

variable {store : StoreDirConfig}

/-- The pass reads the whole dump. -/
theorem slowHashes_dump {f : File} {nar : Bytes} (hdisk : OnDisk f)
    (hdump : dumpPath plain defaultPathFilter f = .ok nar) (method : ContentAddressMethod)
    (hashAlgo : HashAlgorithm) :
    slowHashes store method hashAlgo nar = .ok (nar,
      (store.hashString hashAlgo (hashedBytes method.getFileIngestionMethod f nar)).1) := by
  have hlim := hdisk.withinLimits hdump
  have hlegal : f.toNar.Legal narMaxDepth := legal_toNar.mpr hlim
  have hnar : nar = writeString narVersionMagic1 ++ (f.toNar.encode ++ []) := by
    rw [dumpPath_eq_ok hlim] at hdump
    rw [List.append_nil]
    exact (Except.ok.inj hdump).symm
  have htake : nar.take (nar.length - ([] : Bytes).length) = nar := by
    rw [List.length_nil, Nat.sub_zero, List.take_length]
  unfold slowHashes hashedBytes
  cases method.getFileIngestionMethod with
  | flat =>
      obtain ⟨regular, hcalls⟩ := runCalls_regularFileSink [] f.toNar { sink := [], regular := true }
      have hparse : parseDump plain regularFileSink nar { sink := [], regular := true }
          = .ok ([], ⟨f.contents, regular⟩) := by
        rw [parseDump_eq_ok]
        refine ⟨f.toNar, hlegal, hnar, padsZero_toNar f, ?_⟩
        rw [feed_eq_runCalls rfl, hcalls, List.nil_append]
        rfl
      simp only [hparse, ok_bind, htake, pure_eq_ok]
  | nixArchive =>
      have hparse : parseDump plain nullFileSystemObjectSink nar () = .ok ([], ()) := by
        rw [parseDump_eq_ok]
        exact ⟨f.toNar, hlegal, hnar, hdisk.alignable, feed_null _ _ [] (feed_builds
          memorySink_builds hlegal)⟩
      simp only [hparse, ok_bind, htake, pure_eq_ok]

end Store

-- ============================================================================
-- The hash of a dump that does not name its own path
-- ============================================================================

/-- Without the modulus in it, a stream is hashed as it is. -/
theorem hashModuloInput_of_absent (p : StorePath) {chunks : List Bytes}
    (h : ¬ p.hashPart <:+: chunks.flatten) :
    hashModuloInput p.hashPart chunks = chunks.flatten := by
  have hpos : 0 < p.hashPart.length := by
    rw [p.length_hashPart]
    decide
  have hne : p.hashPart ≠ List.replicate p.hashPart.length 0 := by
    intro heq
    have hmem : (0 : UInt8) ∈ p.hashPart := by
      rw [heq]
      exact List.mem_replicate.mpr ⟨Nat.ne_of_gt hpos, rfl⟩
    exact p.not_mem_hashPart (by decide) hmem
  have hlen : p.hashPart.length = (List.replicate p.hashPart.length (0 : UInt8)).length :=
    List.length_replicate.symm
  obtain ⟨hout, hfound, -⟩ := @RewritingSink.run_flush _ _ hlen hpos hne chunks
  have hsweep := Sweep.sweep_of_absent hlen 0 h
  unfold hashModuloInput modulusSink
  simp only [hout, hfound, hsweep]
  simp

-- ============================================================================
-- Importing a dump
-- ============================================================================

/-- The tree that `addToStoreFromDump` stores. -/
def storedFile (method : FileIngestionMethod) (f : File) : File :=
  match method with
  | .flat => .regular false f.contents
  | .nixArchive => f

/-- A stream that has been read holds a tree: in the temporary directory, or
    still in the buffer. -/
inductive Holding (dumpMethod : FileSerialisationMethod) (g : File) : ReadDump → Prop where
  | moved (dump hashed : Bytes) : Holding dumpMethod g { dump, temp := some g, hashed }
  | flat {contents : Bytes} (hashed : Bytes) : dumpMethod = .flat → g = .regular false contents →
      Holding dumpMethod g { dump := contents, temp := none, hashed }
  | archive {stream nar : Bytes} (hashed : Bytes) : dumpMethod = .nixArchive →
      restorePath stream = (some g, .ok nar) →
      Holding dumpMethod g { dump := stream, temp := none, hashed }

/-- A flat stream is hashed whole, and held as a file that is not executable. -/
theorem readDump_flat (narBufferSize : Nat) (chunks : List Bytes) (turns : List Nat) :
    ∃ dump, dump.hashed = chunks.flatten ∧
      Holding .flat (.regular false chunks.flatten) dump ∧
      readDump narBufferSize .flat true ⟨chunks, ⟨[], [], turns⟩⟩ = .ok dump := by
  obtain ⟨dump, inMemory, source, hfill, (hdump : dump = chunks.flatten.take narBufferSize),
      (hmem : inMemory = decide (chunks.flatten.length < narBufferSize)),
      (hrest : source.orig.flatten = chunks.flatten.drop narBufferSize), hsink⟩ :=
    fillBuffer_outcome narBufferSize _ [] ⟨chunks, ⟨[], [], turns⟩⟩ (Nat.le_refl _)
      (Nat.zero_le _) rfl
  have hall : dump ++ source.orig.flatten = chunks.flatten := by
    rw [hdump, hrest, List.take_append_drop]
  rw [readDump, hfill]
  by_cases hlt : chunks.flatten.length < narBufferSize
  · have hwhole : dump = chunks.flatten := by
      rw [hdump, List.take_of_length_le (Nat.le_of_lt hlt)]
    simp only [hmem, decide_eq_true hlt, Bool.true_and, if_true]
    refine ⟨_, ?_, ?_, rfl⟩
    · rw [AsyncHashSink.finish_eq, hsink, hwhole]
    · exact .flat _ rfl (by rw [hwhole])
  · simp only [hmem, decide_eq_false hlt, Bool.false_and, Bool.false_eq_true, if_false, hall,
      restoreWith]
    refine ⟨_, ?_, .moved _ _, rfl⟩
    have hmore : chunks.flatten.length - dump.length = source.orig.flatten.length := by
      rw [← hall, List.length_append]
      omega
    show (source.drain source.size (chunks.flatten.length - dump.length)).sink.finish = _
    rw [AsyncHashSink.finish_eq, hmore, TeeSource.written_drain _ _ _ (Nat.le_refl _)
      (Nat.le_refl _), hsink, List.take_length, hall]

/-- What is dumped flat is the contents of a file. -/
theorem contents_of_dumpFile {f : File} {dump : Bytes}
    (h : DiskStore.dumpFile .flat f = .ok dump) : f.contents = dump := by
  cases f with
  | directory es => cases h
  | symlink t => cases h
  | regular e c =>
      rw [File.contents, File.toNar, files, List.map_singleton, List.flatten_singleton]
      exact Except.ok.inj h

/-- The dump of a source is hashed whole, and holds the tree to be stored. -/
theorem readDump_source {method : FileIngestionMethod} {f : File} {dump : Bytes}
    (hdump : DiskStore.dumpFile method f = .ok dump)
    (hlim : method = .nixArchive → f.WithinLimits narMaxDepth) (narBufferSize : Nat)
    {chunks : List Bytes} (hchunks : chunks.flatten = dump) (turns : List Nat) :
    ∃ r, r.hashed = dump ∧ Holding method.toSerialisation (storedFile method f) r ∧
      readDump narBufferSize method.toSerialisation true ⟨chunks, ⟨[], [], turns⟩⟩ = .ok r := by
  subst hchunks
  cases method with
  | flat =>
      show ∃ r, r.hashed = _ ∧ Holding .flat (.regular false f.contents) r ∧ _
      rw [contents_of_dumpFile hdump]
      exact readDump_flat narBufferSize chunks turns
  | nixArchive =>
      have hrestore := restorePath_dump (hlim rfl) hdump
      have hread := readDump_archive narBufferSize chunks turns
      rw [DiskStore.hashedPart_whole (by rw [hrestore])] at hread
      obtain ⟨r, hhashed, hholds, hrun⟩ := hread
      refine ⟨r, hhashed, ?_, hrun⟩
      cases hholds with
      | buffered hashed => exact .archive hashed rfl hrestore
      | unpacked hashed h =>
          rw [hrestore] at h
          cases h
          exact .moved [] hashed

namespace DiskStore

variable {store : StoreDirConfig} {now : Int}

/-- The tree that is held is put at its path. -/
theorem replaceTree_holding {dumpMethod : FileSerialisationMethod} {path : StorePath}
    (hname : realName path ≠ none) {g : File} {dump : ReadDump} (h : Holding dumpMethod g dump)
    (s : DiskStore) :
    ∃ s', replaceTree dumpMethod path dump s = .ok () s' ∧ s'.toLocalStore = s.toLocalStore ∧
      Placed s path g s' := by
  obtain ⟨name, hsome⟩ := Option.ne_none_iff_exists'.mp hname
  cases h with
  | moved dump hashed => exact moveFile_erased hsome g s
  | flat hashed hflat hg =>
      subst hflat hg
      exact moveFile_erased hsome _ s
  | archive hashed harchive hrestore =>
      subst harchive
      rename_i stream nar
      have hbuffered : Holds stream { dump := stream, temp := none, hashed } := .buffered hashed
      have hrun := replaceTree_outcome hname hbuffered s
      cases hdo : replaceTree .nixArchive path { dump := stream, temp := none, hashed } s with
      | error e s' => exact absurd ⟨_, _, hrestore⟩ (hrun.of_error rfl hdo)
      | ok u s' =>
          obtain ⟨hlocal, f, nar, hrestore', hplaced⟩ := hrun.of_ok rfl hdo
          rw [hrestore] at hrestore'
          cases hrestore'
          exact ⟨s', rfl, hlocal, hplaced⟩

theorem makeFromCA_of_path {name : Bytes} {ca : ContentAddressWithReferences} {p : StorePath}
    (hpath : store.makeFixedOutputPathFromCA name ca = .ok p) (nar : Bytes) :
    ∃ info, ValidPathInfo.makeFromCA store name ca (store.hashString .sha256 nar).1 = .ok info ∧
      { info with narSize := UInt64.ofNat nar.length } = sourceInfo store p ca nar := by
  rw [ValidPathInfo.makeFromCA, hpath, ok_bind]
  exact ⟨_, rfl, rfl⟩

/-- A computed path has a place in the store directory. -/
theorem realName_of_computed {name : Bytes} {ca : ContentAddressWithReferences} {p : StorePath}
    (hpath : store.makeFixedOutputPathFromCA name ca = .ok p) : realName p ≠ none := by
  have hdash := (store.makeFixedOutputPathFromCA_eq_ok hpath).1
  refine realName_ne_none ⟨?_, ?_⟩
  · rw [hdash]
    decide
  · rw [hdash]
    decide

variable (store now) in
/-- The registration of an info was accepted, and this is what it did. -/
def Commits (info : ValidPathInfo) (s s' : DiskStore) : Prop :=
  LocalStore.Accepts store s.db (.single info) ∧
    LocalStore.Committed store now s.db (.single info) s'.db

/-- Once a tree is held, only its registration can be refused. -/
theorem importDump_source {name : Bytes} {dumpMethod : FileSerialisationMethod}
    {hashAlgo : HashAlgorithm} {ca : ContentAddressWithReferences} {p : StorePath}
    (hpath : store.makeFixedOutputPathFromCA name ca = .ok p) {g : File} {dump : ReadDump}
    (hholding : Holding dumpMethod g dump) {nar : Bytes}
    (hnar : dumpPath plain defaultPathFilter g = .ok nar)
    (hhashed : dumpMethod = .nixArchive → dump.hashed = nar) (s : DiskStore) :
    Run s (importDump store now name dumpMethod hashAlgo ca p dump)
      (fun _ s' => Commits store now (sourceInfo store p ca nar) s s')
      (fun _ _ => ¬ LocalStore.Accepts store s.db (.single (sourceInfo store p ca nar))) := by
  obtain ⟨s₁, hreplace, hlocal, hplaced⟩ :=
    replaceTree_holding (realName_of_computed hpath) hholding s
  have htree : s₁.tree p = some g := (hplaced p).trans (if_pos rfl)
  have hnarHash : narHashOf store dumpMethod hashAlgo dump (some g)
      = .ok ((store.hashString .sha256 nar).1, UInt64.ofNat nar.length) := by
    unfold narHashOf
    by_cases hshort : dumpMethod ≠ .nixArchive ∨ hashAlgo ≠ .sha256
    · simp only [if_pos hshort, hnar, ok_bind, pure_eq_ok]
    · obtain ⟨harchive, hsha⟩ := not_or.mp hshort
      rw [not_not] at harchive hsha
      rw [if_neg hshort, hhashed harchive, hsha]
  obtain ⟨info, hmake, hinfo⟩ := makeFromCA_of_path hpath nar
  intro t ht
  subst ht
  unfold importDump
  rw [bind_of_ok hreplace, bind_of_ok (get_run s₁), htree, hnarHash,
    bind_of_ok (fromExcept_ok _ s₁), hmake, bind_of_ok (fromExcept_ok _ s₁), hinfo,
    registerValidPath]
  have houtcome := @LocalStore.registerValidPaths_outcome store now
    (.single (sourceInfo store p ca nar)) s₁.toLocalStore
  have hregister := onStore_spec houtcome s₁ rfl
  rw [hlocal] at hregister
  cases hrun : onStore (LocalStore.registerValidPaths store now
      (.single (sourceInfo store p ca nar))) s₁ with
  | ok u s' =>
      rw [hrun] at hregister
      exact ⟨hregister.1.1, hregister.1.2.2⟩
  | error e s' =>
      rw [hrun] at hregister
      exact hregister.1.1

-- ============================================================================
-- Adding a path
-- ============================================================================

variable (store) in
/-- What a function that adds a path does, exactly: it returns if the path is
    valid already, and changes nothing then, or if its registration is
    accepted, and the row of the path has the NAR hash then. -/
structure Adds {α : Type} (x : DiskM α) (a : α) (info : ValidPathInfo) (s : DiskStore) : Prop where
  returns : s.db.Valid (store.printStorePath info.path) ∨
      LocalStore.Accepts store s.db (.single info) →
    ∃ s', x s = .ok a s' ∧
      (s.db.Valid (store.printStorePath info.path) → s'.db = s.db) ∧
      (¬ s.db.Valid (store.printStorePath info.path) → ∃ row,
        s'.db.queryPathInfo (store.printStorePath info.path) = some row ∧
          LocalStore.readNarHash store info.path row.hash = .ok info.narHash)
  throws : ¬ (s.db.Valid (store.printStorePath info.path) ∨
      LocalStore.Accepts store s.db (.single info)) → ∃ e s', x s = .error e s'

theorem Commits.row {info : ValidPathInfo} {s s' : DiskStore} (h : Commits store now info s s')
    (hnew : ¬ s.db.Valid (store.printStorePath info.path)) :
    ∃ row, s'.db.queryPathInfo (store.printStorePath info.path) = some row ∧
      LocalStore.readNarHash store info.path row.hash = .ok info.narHash := by
  obtain ⟨id, hrow⟩ := h.2.added info (List.mem_singleton.mpr rfl) hnew
  exact ⟨_, hrow, LocalStore.readNarHash_column info.path info⟩

/-- The two checks around an import, when the cache knows what is valid. -/
theorem adds_of_import {info : ValidPathInfo} {add : DiskM Unit}
    (hadd : ∀ s, Run s add (fun _ s' => Commits store now info s s')
      (fun _ _ => ¬ LocalStore.Accepts store s.db (.single info)))
    {s : DiskStore} (hcache : SeemsValid store s.toLocalStore info.path ↔
      s.db.Valid (store.printStorePath info.path)) :
    Adds store (addIfWanted store false info.path add) () info s := by
  have houtcome : Run s (addIfWanted store false info.path add) _ _ :=
    addIfWanted_outcome hadd info.path false s
  cases hrun : addIfWanted store false info.path add s with
  | ok u s' =>
      have hadded := houtcome.of_ok rfl hrun
      refine ⟨fun _ => ⟨s', hrun, ?_, ?_⟩, fun hno => ?_⟩
      · intro hvalid
        cases hadded with
        | skipped _ _ hsame => exact hsame.db_eq
        | valid _ _ _ hdb _ _ => exact hdb
        | imported s₁ hwanted _ _ =>
            rcases hwanted with hrepair | ⟨-, hnew⟩
            · cases hrepair
            · exact absurd hvalid hnew
      · intro hnew
        cases hadded with
        | skipped _ hseems _ => exact absurd (hcache.mp hseems) hnew
        | valid _ _ hvalid _ _ _ => exact absurd hvalid hnew
        | imported s₁ _ hsame hregisters =>
            rw [← hsame.db_eq] at hnew
            exact hregisters.row hnew
      · cases hadded with
        | skipped _ hseems _ => exact absurd (Or.inl (hcache.mp hseems)) hno
        | valid _ _ hvalid _ _ _ => exact absurd (Or.inl hvalid) hno
        | imported s₁ _ hsame hregisters =>
            have hacc := hregisters.1
            rw [hsame.db_eq] at hacc
            exact absurd (Or.inr hacc) hno
  | error e s' =>
      obtain ⟨hwanted, s₁, hsame, hrefused⟩ := houtcome.of_error rfl hrun
      rw [hsame.db_eq] at hrefused
      refine ⟨fun h => ?_, fun _ => ⟨e, s', hrun⟩⟩
      rcases hwanted with hrepair | ⟨-, hnew⟩
      · cases hrepair
      · rcases h with hvalid | hacc
        · exact absurd hvalid hnew
        · exact absurd hacc hrefused

/-- The value that is returned is chosen afterwards. -/
theorem Adds.then_pure {α β : Type} {x : DiskM α} {a : α} {info : ValidPathInfo} {s : DiskStore}
    (h : Adds store x a info s) (b : β) : Adds store (do let _ ← x; pure b) b info s where
  returns := fun hyes => by
    obtain ⟨s', hrun, hdb, hrow⟩ := h.returns hyes
    exact ⟨s', by rw [bind_of_ok hrun]; rfl, hdb, hrow⟩
  throws := fun hno => by
    obtain ⟨e, s', hrun⟩ := h.throws hno
    exact ⟨e, s', by rw [bind_of_error hrun]⟩

/-- A further check in front changes nothing. -/
theorem Adds.behind_check {x : DiskM Unit} {info : ValidPathInfo} {s : DiskStore}
    (hcache : SeemsValid store s.toLocalStore info.path ↔
      s.db.Valid (store.printStorePath info.path))
    (h : ∀ s₁, SameContents s s₁ → Adds store x () info s₁) :
    Adds store (do if ← wanted store false info.path then x) () info s := by
  have hcheck : Run s (wanted store false info.path) _ _ := wanted_outcome false info.path s
  cases hrun : wanted store false info.path s with
  | error e s₁ => exact (hcheck.of_error rfl hrun).elim
  | ok b s₁ =>
      obtain ⟨hsame, hiff⟩ := hcheck.of_ok rfl hrun
      cases b with
      | true =>
          have hstep : (do if ← wanted store false info.path then x : DiskM Unit) s = x s₁ := by
            rw [bind_of_ok hrun]
            rfl
          have hx := h s₁ hsame
          refine ⟨fun hyes => ?_, fun hno => ?_⟩
          · rw [← hsame.db_eq] at hyes ⊢
            obtain ⟨s', hrun', hdone⟩ := hx.returns hyes
            exact ⟨s', hstep.trans hrun', hdone⟩
          · rw [← hsame.db_eq] at hno
            obtain ⟨e, s', hrun'⟩ := hx.throws hno
            exact ⟨e, s', hstep.trans hrun'⟩
      | false =>
          have hstep : (do if ← wanted store false info.path then x : DiskM Unit) s = .ok () s₁ := by
            rw [bind_of_ok hrun]
            rfl
          have hvalid : s.db.Valid (store.printStorePath info.path) := by
            have hseems := mt hiff.mpr Bool.false_ne_true
            exact hcache.mp (not_not.mp fun hno => hseems (Or.inr hno))
          exact ⟨fun _ => ⟨s₁, hstep, fun _ => hsame.db_eq, fun hnew => absurd hvalid hnew⟩,
            fun hno => absurd (Or.inl hvalid) hno⟩

-- ============================================================================
-- The two functions that add
-- ============================================================================

/-- What is hashed is what `computeStorePath` hashes. -/
theorem hashedBytes_eq_dump {method : FileIngestionMethod} {f : File} {dump nar : Bytes}
    (hdump : dumpFile method f = .ok dump)
    (hnar : dumpPath plain defaultPathFilter f = .ok nar) : hashedBytes method f nar = dump := by
  cases method with
  | flat => exact contents_of_dumpFile hdump
  | nixArchive =>
      have hsame : dumpPath plain defaultPathFilter f = .ok dump := hdump
      rw [hnar] at hsame
      exact Except.ok.inj hsame

/-- Parts without a self reference are always put together. -/
theorem fromParts_eq_ok (method : ContentAddressMethod) (hash : Hash)
    (references : Finset StorePath) :
    ∃ ca, ContentAddressWithReferences.fromParts method hash
        { others := references, self := false } = .ok ca ∧
      ca.getMethod = method ∧ ca.getHash = hash := by
  cases method with
  | flat => exact ⟨_, rfl, rfl, rfl⟩
  | nixArchive => exact ⟨_, rfl, rfl, rfl⟩
  | text => exact ⟨_, rfl, rfl, rfl⟩

/-- `addToStoreFromDump` of the dump of a source, once it has been read. -/
theorem addToStoreFromDump_dump {f : File} {method : ContentAddressMethod}
    {hashAlgo : HashAlgorithm} {references : Finset StorePath} {dump : Bytes}
    (hdump : dumpFile method.getFileIngestionMethod f = .ok dump)
    (hlim : method.getFileIngestionMethod = .nixArchive → f.WithinLimits narMaxDepth)
    {ca : ContentAddressWithReferences}
    (hca : ContentAddressWithReferences.fromParts method (store.hashString hashAlgo dump).1
      { others := references, self := false } = .ok ca) (name : Bytes) (narBufferSize : Nat)
    {chunks : List Bytes} (hchunks : chunks.flatten = dump) (turns : List Nat) (repair : Bool) :
    ∃ r : ReadDump, r.hashed = dump ∧ Holding method.getFileIngestionMethod.toSerialisation
        (storedFile method.getFileIngestionMethod f) r ∧
      addToStoreFromDump store now narBufferSize chunks turns name
        method.getFileIngestionMethod.toSerialisation method hashAlgo references repair
      = (do
        let dstPath ← fromExcept (store.makeFixedOutputPathFromCA name ca)
        addIfWanted store repair dstPath (importDump store now name
          method.getFileIngestionMethod.toSerialisation hashAlgo ca dstPath r)
        pure dstPath) := by
  have hmatch : method.getFileIngestionMethod.toSerialisation.toIngestion
      = method.getFileIngestionMethod := by
    cases method.getFileIngestionMethod with
    | flat => rfl
    | nixArchive => rfl
  obtain ⟨r, hhashed, hholding, hread⟩ := readDump_source hdump hlim narBufferSize hchunks turns
  refine ⟨r, hhashed, hholding, ?_⟩
  funext s
  unfold addToStoreFromDump
  simp only [hmatch, decide_true, if_true, hread, bind_of_ok (fromExcept_ok _ s), hhashed, hca]

/-- `addToStoreFromDump` of a source. -/
theorem addToStoreFromDump_source {name : Bytes} {f : File} {method : ContentAddressMethod}
    {hashAlgo : HashAlgorithm} {references : Finset StorePath} {dump nar : Bytes}
    (hdump : dumpFile method.getFileIngestionMethod f = .ok dump)
    (hlim : method.getFileIngestionMethod = .nixArchive → f.WithinLimits narMaxDepth)
    (hnar : dumpPath plain defaultPathFilter
      (storedFile method.getFileIngestionMethod f) = .ok nar)
    {ca : ContentAddressWithReferences}
    (hca : ContentAddressWithReferences.fromParts method (store.hashString hashAlgo dump).1
      { others := references, self := false } = .ok ca)
    {p : StorePath} (hpath : store.makeFixedOutputPathFromCA name ca = .ok p)
    (narBufferSize : Nat) {chunks : List Bytes} (hchunks : chunks.flatten = dump)
    (turns : List Nat) {s : DiskStore}
    (hcache : SeemsValid store s.toLocalStore p ↔ s.db.Valid (store.printStorePath p)) :
    Adds store (addToStoreFromDump store now narBufferSize chunks turns name
      method.getFileIngestionMethod.toSerialisation method hashAlgo references false) p
      (sourceInfo store p ca nar) s := by
  obtain ⟨r, hhashed, hholding, hrun⟩ :=
    addToStoreFromDump_dump hdump hlim hca name narBufferSize hchunks turns false
  have hsameNar : method.getFileIngestionMethod.toSerialisation = .nixArchive → r.hashed = nar := by
    intro harchive
    rw [hhashed]
    cases hfim : method.getFileIngestionMethod with
    | flat =>
        rw [hfim] at harchive
        cases harchive
    | nixArchive =>
        rw [hfim] at hdump hnar
        exact Except.ok.inj (hdump.symm.trans hnar)
  have himport : Adds store (addIfWanted store false p (importDump store now name
      method.getFileIngestionMethod.toSerialisation hashAlgo ca p r)) ()
      (sourceInfo store p ca nar) s :=
    adds_of_import (fun t => importDump_source hpath hholding hnar hsameNar t) hcache
  rw [hrun, hpath]
  exact himport.then_pure p

/-- The import of a dump whose content address is right is only refused by
    the registration. -/
theorem import_source {f : File} {method : ContentAddressMethod} {hashAlgo : HashAlgorithm}
    {dump nar : Bytes} (hdump : dumpFile method.getFileIngestionMethod f = .ok dump)
    (hdisk : OnDisk f) (hnar : dumpPath plain defaultPathFilter f = .ok nar) {name : Bytes}
    {ca : ContentAddressWithReferences} (hmethod : ca.getMethod = method)
    (hhash : ca.getHash = (store.hashString hashAlgo dump).1) {p : StorePath}
    (hpath : store.makeFixedOutputPathFromCA name ca = .ok p) (habsent : ¬ p.hashPart <:+: dump)
    (s : DiskStore) :
    Run s (import_ store now (sourceInfo store p ca nar) nar)
      (fun _ s' => Commits store now (sourceInfo store p ca nar) s s')
      (fun _ _ => ¬ LocalStore.Accepts store s.db (.single (sourceInfo store p ca nar))) := by
  have hrestore := restorePath_dump (hdisk.withinLimits hnar) hnar
  have hself : hashModuloInput p.hashPart [dump] = dump := by
    rw [hashModuloInput_of_absent p (by rwa [List.flatten_singleton]), List.flatten_singleton]
  have hactual : (store.hashString (store.hashString hashAlgo dump).1.algo dump).1
      = (store.hashString hashAlgo dump).1 := by
    rw [(store.hashString hashAlgo dump).2]
  have hcheck : checkImport store (sourceInfo store p ca nar) nar (some f) = .ok () := by
    have hca : checkCa store (sourceInfo store p ca nar) (some f) = .ok () := by
      simp only [checkCa, sourceInfo, hmethod, hhash, pure_eq_ok, ok_bind, hdump, hself, hactual,
        throwIf, Hash.equals_self, not_true_eq_false, if_false]
    have hnarHash : checkNarHash store (sourceInfo store p ca nar) nar = .ok () :=
      if_neg (not_not.mpr (Hash.equals_self _))
    have hnarSize : checkNarSize store (sourceInfo store p ca nar) nar = .ok () :=
      if_neg (not_not.mpr rfl)
    rw [checkImport, hnarHash, hnarSize, hca]
    rfl
  refine (import_outcome _ nar s).weaken (fun _ h => h) ?_ ?_
  · exact fun _ s' h => ⟨h.accepts, h.committed⟩
  · rintro _ s' ⟨-, -, hwhy⟩ hacc
    exact hwhy ⟨realName_of_computed hpath, ⟨f, nar, hrestore, hcheck⟩, hacc⟩

end DiskStore

end NixStore
