/-
  NixStore.Util.NarRoundTrip

  `dumpPath` and `parseDump` against each other, through the grammar.

  A `MemorySink` fed with a legal node ends up holding that node's tree
  (`feed_memorySink`), and `dumpPath` of a tree within the limits of the
  format is the archive of that tree (`dumpPath_eq_ok`).  With the parser
  theorem this gives the round trip and the canonicity of archives: the
  parser accepts exactly what the encoder writes for the trees within the
  limits.
-/

import NixStore.Util.NarParser

namespace NixStore

open Wire SortedMap

/-! ## Trees and nodes -/

mutual

/-- The node `dumpPath` writes for a tree: every padding is zero. -/
def File.toNar : File → NarNode
  | .regular executable contents =>
      .regular executable contents (writePadding contents.length)
  | .directory entries => .directory (File.toNarEntries entries)
  | .symlink target => .symlink target

/-- `toNar` for the entries of a directory. -/
def File.toNarEntries : List (Bytes × File) → List (Bytes × NarNode)
  | [] => []
  | (name, f) :: rest => (name, f.toNar) :: File.toNarEntries rest

end

mutual

/-- The tree a node carries. -/
def NarNode.toFile : NarNode → File
  | .regular executable contents _ => .regular executable contents
  | .directory entries => .directory (NarNode.toFileEntries entries)
  | .symlink target => .symlink target

/-- `toFile` for the entries of a directory. -/
def NarNode.toFileEntries : List (Bytes × NarNode) → List (Bytes × File)
  | [] => []
  | (name, x) :: rest => (name, x.toFile) :: NarNode.toFileEntries rest

end

mutual

/-- A tree within the limits of the format, `levels` nesting levels deep at
    most: a file's size fits the 64-bit field, a link target has 1 to 4095
    bytes and no NUL, and a directory is a map from valid names of at most
    255 bytes. -/
def File.WithinLimits : Nat → File → Prop
  | levels, .regular _ contents => 0 < levels ∧ contents.length < 2 ^ 64
  | levels, .directory entries =>
      0 < levels ∧ Ascending entries ∧ File.EntriesWithinLimits (levels - 1) entries
  | levels, .symlink target =>
      0 < levels ∧ target ≠ [] ∧ 0 ∉ target ∧ target.length ≤ narMaxTarget

/-- `WithinLimits` for the entries of a directory. -/
def File.EntriesWithinLimits : Nat → List (Bytes × File) → Prop
  | _, [] => True
  | levels, (name, f) :: rest =>
      name.length ≤ narMaxName ∧ ¬ invalidName name ∧ File.WithinLimits levels f ∧
        File.EntriesWithinLimits levels rest

end

/-- An entry of a directory within the limits. -/
theorem File.EntriesWithinLimits.find {levels : Nat} {es : List (Bytes × File)}
    (h : File.EntriesWithinLimits levels es) {name : Bytes} {f : File}
    (hfind : find? name es = some f) : ¬ invalidName name ∧ f.WithinLimits levels := by
  induction es with
  | nil => cases hfind
  | cons e es ih =>
      obtain ⟨name', f'⟩ := e
      obtain ⟨-, hvalid, hf, hrest⟩ := h
      rw [find?] at hfind
      split at hfind
      · next heq =>
          cases hfind
          rw [← heq]
          exact ⟨hvalid, hf⟩
      · exact ih hrest hfind

/-- A node of a tree within the limits. -/
theorem File.WithinLimits.at? {levels : Nat} {f g : File} (h : f.WithinLimits levels) {q : NodePath}
    (hat : f.at? q = some g) : (∀ name ∈ q, ¬ invalidName name) ∧ ∃ levels, g.WithinLimits levels := by
  induction q generalizing f levels with
  | nil =>
      cases hat
      exact ⟨fun _ hin => absurd hin List.not_mem_nil, levels, h⟩
  | cons name q ih =>
      cases f with
      | regular executable contents => cases hat
      | symlink target => cases hat
      | directory entries =>
          obtain ⟨child, hfind, hrest⟩ := Option.bind_eq_some_iff.mp hat
          obtain ⟨hname, hchild⟩ := h.2.2.find hfind
          obtain ⟨hnames, hg⟩ := ih hchild hrest
          exact ⟨List.forall_mem_cons.mpr ⟨hname, hnames⟩, hg⟩

/-- A tree within the limits has no longer paths. -/
theorem File.WithinLimits.length_lt {levels : Nat} {f g : File} {q : NodePath}
    (h : f.WithinLimits levels) (hat : f.at? q = some g) : q.length < levels := by
  induction q generalizing levels f with
  | nil =>
      cases f with
      | regular _ _ => exact h.1
      | directory _ => exact h.1
      | symlink _ => exact h.1
  | cons name q ih =>
      cases f with
      | regular _ _ => cases hat
      | symlink _ => cases hat
      | directory entries =>
          obtain ⟨hlevels, -, hentries⟩ := h
          obtain ⟨g', hfind, hat'⟩ := Option.bind_eq_some_iff.mp hat
          have hlt := ih (hentries.find hfind).2 hat'
          rw [List.length_cons]
          omega

namespace NarNode

/-- The case hack is off. -/
def plain : ArchiveSettings := { useCaseHack := false }

mutual

theorem toFile_toNar : ∀ f : File, f.toNar.toFile = f
  | .regular _ _ => rfl
  | .directory entries => by rw [File.toNar, toFile, toFileEntries_toNarEntries]
  | .symlink _ => rfl

theorem toFileEntries_toNarEntries : ∀ es : List (Bytes × File),
    toFileEntries (File.toNarEntries es) = es
  | [] => rfl
  | (name, f) :: rest => by
      rw [File.toNarEntries, toFileEntries, toFile_toNar, toFileEntries_toNarEntries]

end

mutual

/-- A node whose paddings are zero is the one `dumpPath` writes. -/
theorem toNar_toFile : ∀ {x : NarNode}, x.PadsZero → x.toFile.toNar = x
  | .regular e c p, h => by
      rw [toFile, File.toNar, ← (h : p = writePadding c.length)]
  | .directory es, h => by
      rw [toFile, File.toNar, toNarEntries_toFileEntries h]
  | .symlink _, _ => rfl

theorem toNarEntries_toFileEntries : ∀ {es : List (Bytes × NarNode)},
    AllFilesEntries (fun contents pad => pad = writePadding contents.length) es →
    File.toNarEntries (toFileEntries es) = es
  | [], _ => rfl
  | (name, x) :: rest, h => by
      rw [toFileEntries, File.toNarEntries, toNar_toFile h.1, toNarEntries_toFileEntries h.2]

end

mutual

theorem padsZero_toNar : ∀ f : File, f.toNar.PadsZero
  | .regular _ _ => rfl
  | .directory entries => padsZero_toNarEntries entries
  | .symlink _ => trivial

theorem padsZero_toNarEntries : ∀ es : List (Bytes × File),
    AllFilesEntries (fun contents pad => pad = writePadding contents.length)
      (File.toNarEntries es)
  | [] => trivial
  | (_, f) :: rest => ⟨padsZero_toNar f, padsZero_toNarEntries rest⟩

end

/-- The empty string the parser starts from is below every valid name. -/
theorem nil_lt_name {levels : Nat} {es : List (Bytes × File)}
    (h : File.EntriesWithinLimits levels es) : ∀ e ∈ es, ([] : Bytes) < e.1 := by
  induction es with
  | nil => exact fun e he => absurd he List.not_mem_nil
  | cons e rest ih =>
      obtain ⟨name, f⟩ := e
      obtain ⟨-, hvalid, -, hrest⟩ := h
      refine List.forall_mem_cons.mpr ⟨?_, ih hrest⟩
      cases name with
      | nil => exact absurd (Or.inl rfl) hvalid
      | cons b bs => exact List.nil_lt_cons b bs

mutual

/-- The parser's demands on a node are the limits on its tree. -/
theorem legal_toNar : ∀ {levels : Nat} {f : File},
    f.toNar.Legal levels ↔ f.WithinLimits levels
  | levels, .regular _ c => by
      simp only [File.toNar, Legal, File.WithinLimits, writePadding_length, and_true]
  | levels, .directory entries => by
      simp only [File.toNar, Legal, File.WithinLimits, legalEntries_toNarEntries]
      have hmin : File.EntriesWithinLimits (levels - 1) entries →
          ∀ e ∈ entries, ([] : Bytes) < e.1 := fun h e he => nil_lt_name h e he
      tauto
  | levels, .symlink t => Iff.rfl

theorem legalEntries_toNarEntries : ∀ {levels : Nat} {prev : Bytes} {es : List (Bytes × File)},
    LegalEntries levels prev (File.toNarEntries es) ↔
      File.EntriesWithinLimits levels es ∧ Ascending es ∧ ∀ e ∈ es, prev < e.1
  | levels, prev, [] => by
      simp [File.toNarEntries, LegalEntries, File.EntriesWithinLimits, Ascending]
  | levels, prev, (name, f) :: rest => by
      simp only [File.toNarEntries, LegalEntries, File.EntriesWithinLimits,
        legal_toNar, legalEntries_toNarEntries, Ascending, List.pairwise_cons,
        List.forall_mem_cons]
      constructor
      · rintro ⟨hlen, hvalid, hprev, hf, hrest, hasc, hlt⟩
        exact ⟨⟨hlen, hvalid, hf, hrest⟩, ⟨hlt, hasc⟩, hprev,
          fun e he => List.lt_trans hprev (hlt e he)⟩
      · rintro ⟨⟨hlen, hvalid, hf, hrest⟩, ⟨hlt, hasc⟩, hprev, -⟩
        exact ⟨hlen, hvalid, hprev, hf, hrest, hasc, hlt⟩

end

/-! ## Feeding a `MemorySink` -/

section Memory

open File

theorem append_append (a b : Bytes) (f : File) :
    File.append b (File.append a f) = File.append (a ++ b) f := by
  cases f with
  | regular x c => simp [File.append]
  | directory es => rfl
  | symlink t => rfl

theorem append_nil (f : File) : File.append [] f = f := by
  cases f with
  | regular x c => simp [File.append]
  | directory es => rfl
  | symlink t => rfl

/-- A sink that builds the tree it is fed: it creates a node where there is
    none yet, at the root or under a name behind all others of a directory,
    and fills regular files. -/
structure BuildsTrees (sink : FileSystemObjectSink (Option File)) : Prop where
  reads : sink.skipContents = false
  preallocateContents : ∀ p n st, sink.preallocateContents p n st = .ok st
  isExecutable : ∀ p T, sink.isExecutable p (some T) = .ok (some (modifyAt setExecutable p T))
  write : ∀ p c T, sink.write p c (some T) = .ok (some (modifyAt (File.append c) p T))
  finishRegularFile : ∀ p st, sink.finishRegularFile p st = .ok st
  directoryRoot : sink.createDirectory [] none = .ok (some (.directory []))
  regularRoot : sink.createRegularFile [] none = .ok (some (.regular false []))
  symlinkRoot : ∀ t, sink.createSymlink [] t none = .ok (some (.symlink t))
  directoryLast : ∀ {p : NodePath} {T : File} {es : List (Bytes × File)} {name : Bytes},
    (at? p T).isSome → (∀ e ∈ es, e.1 < name) →
    sink.createDirectory (p ++ [name]) (some (put p (.directory es) T))
      = .ok (some (put p (.directory (es ++ [(name, .directory [])])) T))
  regularLast : ∀ {p : NodePath} {T : File} {es : List (Bytes × File)} {name : Bytes},
    (at? p T).isSome → (∀ e ∈ es, e.1 < name) →
    sink.createRegularFile (p ++ [name]) (some (put p (.directory es) T))
      = .ok (some (put p (.directory (es ++ [(name, .regular false [])])) T))
  symlinkLast : ∀ {p : NodePath} {T : File} {es : List (Bytes × File)} {name : Bytes} (t : Bytes),
    (at? p T).isSome → (∀ e ∈ es, e.1 < name) →
    sink.createSymlink (p ++ [name]) t (some (put p (.directory es) T))
      = .ok (some (put p (.directory (es ++ [(name, .symlink t)])) T))

variable {sink : FileSystemObjectSink (Option File)}

/-- The chunks of a body reach the file in order. -/
theorem drainInto_builds (hs : BuildsTrees sink) (p : NodePath) (T : File) {rounds : Nat}
    {c : Bytes} (f : File) (hrounds : c.length ≤ rounds) :
    drainInto (sink.write p) rounds c.length c (some (put p f T))
      = .ok ([], some (put p (f.append c) T)) := by
  induction rounds generalizing c f with
  | zero =>
      obtain rfl : c = [] := List.length_eq_zero_iff.mp (by omega)
      rw [append_nil]
      rfl
  | succ rounds ih =>
      cases c with
      | nil =>
          rw [append_nil]
          rfl
      | cons b bs =>
          have hn : min (min (bs.length + 1) 65536) (bs.length + 1)
              = min (bs.length + 1) 65536 := by omega
          have hlen : ((b :: bs).drop (min (bs.length + 1) 65536)).length
              = bs.length + 1 - min (bs.length + 1) 65536 := by
            rw [List.length_drop, List.length_cons]
          have hrec := ih (c := (b :: bs).drop (min (bs.length + 1) 65536))
            (f.append ((b :: bs).take (min (bs.length + 1) 65536)))
            (by rw [hlen]; simp only [List.length_cons] at hrounds; omega)
          rw [append_append, List.take_append_drop, hlen] at hrec
          simp only [List.length_cons, drainInto, throwIf, reduceCtorEq, if_false, ok_bind, hn,
            hs.write, modifyAt_put]
          exact hrec

theorem feedBody_builds (hs : BuildsTrees sink) (p : NodePath) (T : File) (c : Bytes) (f : File) :
    feedBody sink p c (some (put p f T)) = .ok (some (put p (f.append c) T)) := by
  simp only [feedBody, feedContents, hs.preallocateContents, hs.reads, ok_bind,
    Bool.false_eq_true, if_false, drainInto_builds hs p T f (Nat.le_refl c.length), Except.map]

theorem feedExecutable_builds (hs : BuildsTrees sink) (p : NodePath) (T : File) (e : Bool) :
    feedExecutable sink p e (some (put p (.regular false []) T))
      = .ok (some (put p (.regular e []) T)) := by
  cases e with
  | false => rfl
  | true => simp only [feedExecutable, hs.isExecutable, if_true, modifyAt_put, setExecutable]

/-- What follows the creation of a regular file fills it. -/
theorem feedRegular_builds (hs : BuildsTrees sink) (p : NodePath) (T : File) (e : Bool) (c : Bytes) :
    (feedExecutable sink p e (some (put p (.regular false []) T)) >>=
      fun st => feedBody sink p c st >>= sink.finishRegularFile p)
      = .ok (some (put p (.regular e c) T)) := by
  rw [feedExecutable_builds hs, ok_bind, feedBody_builds hs, ok_bind, hs.finishRegularFile]
  rfl

/-- The last entry of a directory, seen from the directory and from itself. -/
theorem put_last {p : NodePath} {T : File} {es : List (Bytes × File)} {name : Bytes}
    (f f' : File) (hlt : ∀ e ∈ es, e.1 < name) :
    put (p ++ [name]) f' (put p (.directory (es ++ [(name, f)])) T)
      = put p (.directory (es ++ [(name, f')])) T :=
  modifyAt_put_last (fun _ => f') (ne_of_forall_lt hlt)

theorem at?_put_last {p : NodePath} {T : File} {es : List (Bytes × File)} {name : Bytes}
    (f : File) (hp : (at? p T).isSome) (hlt : ∀ e ∈ es, e.1 < name) :
    at? (p ++ [name]) (put p (.directory (es ++ [(name, f)])) T) = some f := by
  rw [at?_append, at?_put _ hp]
  simp [at?, find?_append_singleton (ne_of_forall_lt hlt)]

variable (sink) in
/-- A node fed under a new name at the end of a directory. -/
def FeedsNode (levels : Nat) : Prop :=
  ∀ {x : NarNode}, x.Legal levels → ∀ {T : File} {p : NodePath} {es : List (Bytes × File)}
    {name : Bytes}, (at? p T).isSome → (∀ e ∈ es, e.1 < name) →
    feed sink plain (p ++ [name]) x (some (put p (.directory es) T))
      = .ok (some (put p (.directory (es ++ [(name, x.toFile)])) T))

theorem entryName_plain (names : List (Bytes × Nat)) (name : Bytes) :
    entryName plain names name = .ok (name, names) := rfl

/-- The entries of a directory, fed in ascending order, land in its map.  The
    hypothesis on `es` is the loop invariant: every name already there is below
    whatever the sortedness check still lets through. -/
theorem feedEntries_builds {levels : Nat} (hnode : FeedsNode sink levels) {T : File} {p : NodePath}
    (hp : (at? p T).isSome) {es' : List (Bytes × NarNode)} {prev : Bytes}
    (names : List (Bytes × Nat)) {es : List (Bytes × File)}
    (hlegal : LegalEntries levels prev es')
    (hprev : ∀ e ∈ es, ∀ n : Bytes, prev < n → e.1 < n) :
    feedEntries sink plain p names es' (some (put p (.directory es) T))
      = .ok (some (put p (.directory (es ++ toFileEntries es')) T)) := by
  induction es' generalizing prev es with
  | nil =>
      rw [toFileEntries, List.append_nil]
      rfl
  | cons e es' ih =>
      obtain ⟨name, x⟩ := e
      obtain ⟨-, -, hlt, hx, hrest⟩ := hlegal
      have hbelow : ∀ e ∈ es, e.1 < name := fun e he => hprev e he name hlt
      have hnext : ∀ e ∈ es ++ [(name, x.toFile)], ∀ n : Bytes, name < n → e.1 < n := by
        intro e he n hn
        rcases List.mem_append.mp he with he | he
        · exact List.lt_trans (hbelow e he) hn
        · rw [List.mem_singleton.mp he]
          exact hn
      simp only [feedEntries, entryName_plain, ok_bind]
      rw [hnode hx hp hbelow, ok_bind, ih hrest hnext, toFileEntries, List.append_assoc,
        List.singleton_append]

theorem feedsNode (hs : BuildsTrees sink) (levels : Nat) : FeedsNode sink levels := by
  induction levels with
  | zero =>
      intro x hlegal
      cases x with
      | regular e c p => exact absurd hlegal.1 (Nat.lt_irrefl 0)
      | directory es => exact absurd hlegal.1 (Nat.lt_irrefl 0)
      | symlink t => exact absurd hlegal.1 (Nat.lt_irrefl 0)
  | succ levels ih =>
      intro x hlegal T p es name hp hlt
      cases x with
      | regular e c pad =>
          rw [feed, hs.regularLast hp hlt, ok_bind,
            ← put_last (.regular false []) (.regular false []) hlt, feedRegular_builds hs,
            put_last _ _ hlt, toFile]
      | directory es' =>
          have hat := at?_put_last (f := .directory []) hp hlt
          rw [feed, hs.directoryLast hp hlt, ok_bind,
            ← put_last (.directory []) (.directory []) hlt,
            feedEntries_builds ih (by rw [hat]; rfl) [] hlegal.2
              (fun e he => absurd he List.not_mem_nil),
            put_last _ _ hlt, toFile, List.nil_append]
      | symlink t => rw [feed, hs.symlinkLast t hp hlt, toFile]

/-- A sink that starts empty and is fed with a legal node holds the node's
    tree. -/
theorem feed_builds (hs : BuildsTrees sink) {levels : Nat} {x : NarNode} (hlegal : x.Legal levels) :
    feed sink plain [] x none = .ok (some x.toFile) := by
  cases x with
  | regular e c p =>
      rw [feed, hs.regularRoot, ok_bind]
      exact feedRegular_builds hs [] (.regular false []) e c
  | symlink t => rw [feed, hs.symlinkRoot, toFile]
  | directory es =>
      obtain ⟨hpos, hes⟩ := hlegal
      have h : feedEntries sink plain [] [] es (some (put [] (.directory []) (.directory [])))
          = .ok (some (put [] (.directory ([] ++ toFileEntries es)) (.directory []))) :=
        feedEntries_builds (feedsNode hs (levels - 1)) rfl [] hes
          (fun e he => absurd he List.not_mem_nil)
      rw [List.nil_append] at h
      rw [feed, hs.directoryRoot, ok_bind]
      exact h

theorem openOrThrow_some {what : String} {path : NodePath} {create root root' f : File}
    (h : openCreate create [] path root = .ok (root', f)) :
    openOrThrow what path create (some root) = .ok (root', f) := by
  simp only [openOrThrow, openRoot, h, Except.map, ok_bind, pure_eq_ok]

theorem memorySink_builds : BuildsTrees memorySink where
  reads := rfl
  preallocateContents := fun _ _ _ => rfl
  isExecutable := fun _ _ => rfl
  write := fun _ _ _ => rfl
  finishRegularFile := fun _ _ => rfl
  directoryRoot := rfl
  regularRoot := rfl
  symlinkRoot := fun _ => rfl
  directoryLast := by
    intro p T es name hp hlt
    simp only [memorySink, openOrThrow_some (openCreate_put _ hp hlt), ok_bind, pure_eq_ok]
  regularLast := by
    intro p T es name hp hlt
    simp only [memorySink, openOrThrow_some (openCreate_put _ hp hlt), ok_bind, pure_eq_ok]
  symlinkLast := by
    intro p T es name t hp hlt
    simp only [memorySink, openOrThrow_some (openCreate_put _ hp hlt), ok_bind, pure_eq_ok]
    rw [modifyAt_put_last _ (ne_of_forall_lt hlt)]

end Memory

/-! ## What `dumpPath` writes -/

/-- Without the case hack, filling `unhacked` in ascending order keeps the
    directory's order. -/
theorem unhack_plain {β : Type} (path : NodePath) {es : List (Bytes × β)}
    {acc : List (Bytes × Bytes × β)} (hasc : Ascending es)
    (hacc : ∀ a ∈ acc, ∀ e ∈ es, a.1 < e.1) :
    unhack plain path es acc = .ok (acc ++ es.map fun e => (e.1, e.1, e.2)) := by
  induction es generalizing acc with
  | nil => simp [unhack]
  | cons e es ih =>
      obtain ⟨name, body⟩ := e
      obtain ⟨hlt, hasc⟩ := List.pairwise_cons.mp hasc
      have hname : ∀ a ∈ acc, a.1 < name := fun a ha => hacc a ha _ List.mem_cons_self
      have hnext : ∀ a ∈ acc ++ [(name, name, body)], ∀ e ∈ es, a.1 < e.1 := by
        intro a ha e he
        rcases List.mem_append.mp ha with ha | ha
        · exact hacc a ha e (List.mem_cons_of_mem _ he)
        · rw [List.mem_singleton.mp ha]
          exact hlt e he
      simp only [unhack, plain, Bool.false_eq_true, if_false]
      rw [emplace_of_forall_lt hname, Option.getD_some]
      have hrec := ih hasc hnext
      simp only [plain] at hrec
      rw [hrec]
      simp

theorem dumpNodes_names (filter : PathFilter) (es : List (Bytes × File)) (path : NodePath)
    (depth : Nat) :
    (dumpNodes plain filter es path depth).map (·.1) = es.map (·.1) := by
  induction es with
  | nil => rfl
  | cons e es ih =>
      obtain ⟨name, f⟩ := e
      simp only [dumpNodes, List.map_cons, ih]

theorem ascending_iff_names {β : Type} {es : List (Bytes × β)} :
    Ascending es ↔ (es.map (·.1)).Pairwise (· < ·) :=
  List.pairwise_map.symm

mutual

/-- `dump` of a tree within the limits is the encoding of its node. -/
theorem dump_eq_ok : ∀ {f : File} (path : NodePath) {depth : Nat},
    f.WithinLimits (narMaxDepth - depth) →
    dump plain defaultPathFilter f path depth = .ok f.toNar.encode
  | .regular e c, path, depth, h => by
      have hdepth : ¬ depth ≥ narMaxDepth := by have := h.1; omega
      simp only [dump, throwIf, hdepth, if_false, ok_bind, pure_eq_ok, File.toNar, encode,
        List.append_assoc]
  | .symlink t, path, depth, h => by
      have hdepth : ¬ depth ≥ narMaxDepth := by have := h.1; omega
      simp only [dump, throwIf, hdepth, if_false, ok_bind, pure_eq_ok, File.toNar, encode,
        List.append_assoc]
  | .directory es, path, depth, h => by
      obtain ⟨hpos, hasc, hes⟩ := h
      have hdepth : ¬ depth ≥ narMaxDepth := by omega
      have hnames : Ascending (dumpNodes plain defaultPathFilter es path depth) := by
        rw [ascending_iff_names, dumpNodes_names, ← ascending_iff_names]
        exact hasc
      rw [Nat.sub_sub] at hes
      have hentries := dumpEntries_eq_ok path hes
      simp only [dump, throwIf, hdepth, if_false, ok_bind]
      rw [unhack_plain path hnames (fun a ha => absurd ha List.not_mem_nil), ok_bind,
        List.nil_append, hentries]
      simp only [ok_bind, pure_eq_ok, File.toNar, encode, List.append_assoc]

theorem dumpEntries_eq_ok : ∀ {es : List (Bytes × File)} (path : NodePath) {depth : Nat},
    File.EntriesWithinLimits (narMaxDepth - (depth + 1)) es →
    dumpEntries defaultPathFilter path
      ((dumpNodes plain defaultPathFilter es path depth).map fun e => (e.1, e.1, e.2))
      = .ok (encodeEntries (File.toNarEntries es))
  | [], _, _, _ => rfl
  | (name, f) :: rest, path, depth, h => by
      obtain ⟨-, -, hf, hrest⟩ := h
      simp only [dumpNodes, List.map_cons, dumpEntries, defaultPathFilter, if_true]
      have hnode := dump_eq_ok (path ++ [name]) hf
      have htail := dumpEntries_eq_ok path hrest
      rw [hnode, ok_bind, htail]
      simp only [ok_bind, pure_eq_ok, File.toNarEntries, encodeEntries, List.append_assoc]

end

/-- `dumpPath` of a tree within the limits is the archive of its node. -/
theorem dumpPath_eq_ok {f : File} (h : f.WithinLimits narMaxDepth) :
    dumpPath plain defaultPathFilter f
      = .ok (writeString narVersionMagic1 ++ f.toNar.encode) := by
  have hroot : f.WithinLimits (narMaxDepth - 0) := h
  rw [dumpPath, dump_eq_ok [] hroot, ok_bind]
  rfl

/-! ## Reading into a sink that builds the tree -/

/-- Parsing into a sink that builds trees and starts empty accepts exactly the
    archives `dumpPath` writes for trees within the limits, and rebuilds the
    tree. -/
theorem parseDump_builds {sink : FileSystemObjectSink (Option File)} (hs : BuildsTrees sink)
    {source rest : Bytes} {root : Option File} :
    parseDump plain sink source none = .ok (rest, root) ↔
      ∃ f : File, root = some f ∧ f.WithinLimits narMaxDepth ∧
        source = writeString narVersionMagic1 ++ (f.toNar.encode ++ rest) := by
  have hbodies : ∀ x : NarNode, x.AllFiles (BodyOk sink.skipContents) ↔ x.PadsZero := by
    rw [hs.reads]
    exact fun _ => Iff.rfl
  rw [parseDump_eq_ok]
  constructor
  · rintro ⟨x, hlegal, rfl, hbody, hfeed⟩
    have hx := toNar_toFile ((hbodies x).mp hbody)
    rw [feed_builds hs hlegal] at hfeed
    cases hfeed
    refine ⟨x.toFile, rfl, legal_toNar.mp (by rw [hx]; exact hlegal), ?_⟩
    rw [hx]
  · rintro ⟨f, rfl, hlim, rfl⟩
    refine ⟨f.toNar, legal_toNar.mpr hlim, rfl, (hbodies _).mpr (padsZero_toNar f), ?_⟩
    rw [feed_builds hs (legal_toNar.mpr hlim), toFile_toNar]

theorem parseDump_memorySink {source rest : Bytes} {root : Option File} :
    parseDump plain memorySink source none = .ok (rest, root) ↔
      ∃ f : File, root = some f ∧ f.WithinLimits narMaxDepth ∧
        source = writeString narVersionMagic1 ++ (f.toNar.encode ++ rest) :=
  parseDump_builds memorySink_builds

/-- Round trip: what `dumpPath` writes for a tree within the limits, followed
    by anything, is read back as that tree and the rest is left unread. -/
theorem parseDump_dumpPath (f : File) (h : f.WithinLimits narMaxDepth) (rest : Bytes) :
    ∃ nar, dumpPath plain defaultPathFilter f = .ok nar ∧
      parseDump plain memorySink (nar ++ rest) none = .ok (rest, some f) := by
  refine ⟨_, dumpPath_eq_ok h, ?_⟩
  rw [parseDump_memorySink]
  exact ⟨f, rfl, h, by rw [List.append_assoc]⟩

/-- A directory with an executable of three bytes and a link to it. -/
def sampleTree : File :=
  .directory [(ascii "bin", .regular true [1, 2, 3]), (ascii "link", .symlink (ascii "bin"))]

theorem sampleTree_withinLimits : sampleTree.WithinLimits narMaxDepth := by
  simp only [sampleTree, File.WithinLimits, File.EntriesWithinLimits, Ascending,
    List.pairwise_cons]
  decide

theorem parseDump_dumpPath_sampleTree :
    sampleTree.WithinLimits narMaxDepth ∧
      ∃ nar, dumpPath plain defaultPathFilter sampleTree = .ok nar ∧
        parseDump plain memorySink (nar ++ [7]) none = .ok ([7], some sampleTree) :=
  ⟨sampleTree_withinLimits, parseDump_dumpPath sampleTree sampleTree_withinLimits [7]⟩

/-! ## Canonicity -/

/-- `parseDump` into a `MemorySink` succeeds on `source`, takes its first `k`
    bytes and builds `f`. -/
def Reads (source : Bytes) (k : Nat) (f : File) : Prop :=
  ∃ rest, parseDump plain memorySink source none = .ok (rest, some f) ∧
    source.length = k + rest.length

/-- What is read off a source is what `dumpPath` writes for the tree. -/
theorem reads_iff {source : Bytes} {k : Nat} {f : File} :
    Reads source k f ↔
      f.WithinLimits narMaxDepth ∧ k ≤ source.length ∧
        dumpPath plain defaultPathFilter f = .ok (source.take k) := by
  constructor
  · rintro ⟨rest, hparse, hlen⟩
    obtain ⟨g, hg, hlim, hsource⟩ := parseDump_memorySink.mp hparse
    cases hg
    rw [← List.append_assoc] at hsource
    refine ⟨hlim, by omega, ?_⟩
    have hk : (writeString narVersionMagic1 ++ f.toNar.encode).length = k := by
      rw [hsource, List.length_append] at hlen
      omega
    rw [dumpPath_eq_ok hlim, hsource, ← hk, List.take_left]
  · rintro ⟨hlim, hk, hdump⟩
    rw [dumpPath_eq_ok hlim] at hdump
    refine ⟨source.drop k, parseDump_memorySink.mpr ⟨f, rfl, hlim, ?_⟩,
      by rw [List.length_drop]; omega⟩
    rw [← List.append_assoc, Except.ok.inj hdump, List.take_append_drop]

/-- Canonicity: the parser reads a tree off the first `k` bytes of a source
    exactly when the tree is within the limits and these bytes are what
    `dumpPath` writes for it, so two sources that denote the same tree agree
    on the bytes that were read. -/
theorem parseDump_canonical (source : Bytes) (k : Nat) (f : File) :
    (Reads source k f ↔
      f.WithinLimits narMaxDepth ∧ k ≤ source.length ∧
        dumpPath plain defaultPathFilter f = .ok (source.take k)) ∧
    ∀ source' k', Reads source k f → Reads source' k' f → source.take k = source'.take k' := by
  refine ⟨reads_iff, ?_⟩
  intro source' k' h h'
  obtain ⟨-, -, hdump⟩ := reads_iff.mp h
  obtain ⟨-, -, hdump'⟩ := reads_iff.mp h'
  rw [hdump] at hdump'
  exact Except.ok.inj hdump'

/-- `dumpPath` does not look at link targets: it writes the empty target,
    which the parser refuses. -/
theorem not_reads_dumpPath_empty_target :
    ¬ ∀ (source : Bytes) (k : Nat), Reads source k (.symlink []) ↔
      k ≤ source.length ∧
        dumpPath plain defaultPathFilter (.symlink []) = .ok (source.take k) := by
  intro h
  obtain ⟨nar, hdump⟩ :
      ∃ nar, dumpPath plain defaultPathFilter (.symlink []) = .ok nar := ⟨_, rfl⟩
  have hreads : Reads nar nar.length (.symlink []) := by
    rw [h nar nar.length, List.take_length]
    exact ⟨Nat.le_refl _, hdump⟩
  obtain ⟨-, htarget, -⟩ := (reads_iff.mp hreads).1
  exact htarget rfl

end NarNode

end NixStore
