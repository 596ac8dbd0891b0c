/-
  NixStore.Util.Restore

  `restorePath` (`libutil/archive.cc`): an archive unpacked by a `RestoreSink`
  (`libutil/fs-sink.cc`) at a place where nothing is.

  An exception leaves behind what was created before it.  The parser is
  therefore written here once more over a state that survives exceptions
  (`restoreDump`); on what it returns it follows `parseDump`
  (`restoreDump_outcome`).

  Modes and times are left out, and so is preallocation, which is off by
  default and does not change contents.
-/

import NixStore.Lib.Effect
import NixStore.Util.NarRoundTrip

namespace NixStore

open SortedMap

-- ============================================================================
-- RestoreSink
-- ============================================================================

/-- Create a node as `mkdirat`, `openat` with `O_CREAT | O_EXCL` and
    `symlinkat` do: its directory is there and the name is not. -/
def restoreCreate (what : String) (path : NodePath) (new : File) :
    Option File → Except Error (Option File)
  | none =>
      if path = [] then .ok (some new)
      else .error (.error
        s!"cannot create non-root path '{showPath path}' without a root directory")
  | some root =>
      if (root.at? path).isSome then
        .error (.error s!"creating {what} '{showPath path}': File exists")
      else
        match root.at? path.dropLast with
        | some (.directory _) => (File.openCreate new [] path root).map fun r => some r.1
        | _ => .error (.error s!"opening parent directory of '{showPath path}'")

/-- `RestoreSink`; the state is what is at its destination. -/
def restoreSink : FileSystemObjectSink (Option File) where
  skipContents := false
  createDirectory path dst := restoreCreate "directory" path (.directory []) dst
  createRegularFile path dst := restoreCreate "file" path (.regular false []) dst
  isExecutable path dst := .ok (dst.map (File.modifyAt File.setExecutable path))
  preallocateContents _ _ dst := .ok dst
  write path data dst := .ok (dst.map (File.modifyAt (File.append data) path))
  finishRegularFile _ dst := .ok dst
  createSymlink path target dst := restoreCreate "symlink" path (.symlink target) dst

namespace NarNode

open File

/-- A new name behind all others of a directory that is there. -/
theorem restoreCreate_last (what : String) (new : File) {p : NodePath} {T : File}
    {es : List (Bytes × File)} {name : Bytes} (hp : (at? p T).isSome)
    (hlt : ∀ e ∈ es, e.1 < name) :
    restoreCreate what (p ++ [name]) new (some (put p (.directory es) T))
      = .ok (some (put p (.directory (es ++ [(name, new)])) T)) := by
  have hparent : at? p (put p (.directory es) T) = some (.directory es) := at?_put _ hp
  have hmissing : at? (p ++ [name]) (put p (.directory es) T) = none := by
    rw [at?_append, hparent]
    simp [at?, find?_eq_none (ne_of_forall_lt hlt)]
  rw [restoreCreate, hmissing, List.dropLast_concat, hparent]
  simp only [Option.isSome_none, Bool.false_eq_true, if_false, openCreate_put new hp hlt, Except.map]

theorem restoreSink_builds : BuildsTrees restoreSink where
  reads := rfl
  preallocateContents := fun _ _ _ => rfl
  isExecutable := fun _ _ => rfl
  write := fun _ _ _ => rfl
  finishRegularFile := fun _ _ => rfl
  directoryRoot := rfl
  regularRoot := rfl
  symlinkRoot := fun _ => rfl
  directoryLast := fun hp hlt => restoreCreate_last "directory" (.directory []) hp hlt
  regularLast := fun hp hlt => restoreCreate_last "file" (.regular false []) hp hlt
  symlinkLast := fun t hp hlt => restoreCreate_last "symlink" (.symlink t) hp hlt

end NarNode

-- ============================================================================
-- The parser over a state that survives exceptions
-- ============================================================================

/-- A parser that reads a source and calls a sink. -/
abbrev ParseM (σ : Type) := EStateM Error (Bytes × σ)

namespace ParseM

variable {σ α : Type}

/-- Read from the source. -/
def reading (read : Bytes → Except Error (α × Bytes)) : ParseM σ α := fun s =>
  match read s.1 with
  | .ok (a, source) => .ok a (source, s.2)
  | .error e => .error e s

/-- Read from the source and return nothing. -/
def consuming (read : Bytes → Except Error Bytes) : ParseM σ Unit :=
  reading fun source => (read source).map fun rest => ((), rest)

/-- Call the sink. -/
def calling (call : σ → Except Error σ) : ParseM σ Unit := fun s =>
  match call s.2 with
  | .ok st => .ok () (s.1, st)
  | .error e => .error e s

/-- `if (c) throw e;` -/
def throwWhen (c : Prop) [Decidable c] (e : Error) : ParseM σ Unit :=
  Effect.fromExcept (throwIf c e)

/-- What is left of the source. -/
def sourceLeft : ParseM σ Bytes := fun s => .ok s.1 s

/-- What a parser returns or throws, with the state only in the first case. -/
def outcome (x : ParseM σ α) (s : Bytes × σ) : Except Error (α × Bytes × σ) :=
  match x s with
  | .ok a s' => .ok (a, s')
  | .error e _ => .error e

section Outcome

variable {β : Type} (s : Bytes × σ)

@[simp] theorem outcome_pure (a : α) :
    outcome (pure a : ParseM σ α) s = .ok (a, s) := rfl

@[simp] theorem outcome_throw (e : Error) :
    outcome (throw e : ParseM σ α) s = .error e := rfl

@[simp] theorem outcome_bind (x : ParseM σ α) (f : α → ParseM σ β) :
    outcome (x >>= f) s = outcome x s >>= fun r => outcome (f r.1) r.2 := by
  unfold outcome
  rw [Effect.bind_run]
  cases x s with
  | ok a s' => rfl
  | error e s' => rfl

@[simp] theorem outcome_reading (read : Bytes → Except Error (α × Bytes)) :
    outcome (reading read) s = read s.1 >>= fun r => .ok (r.1, r.2, s.2) := by
  unfold outcome reading
  cases read s.1 with
  | ok r => rfl
  | error e => rfl

@[simp] theorem outcome_consuming (read : Bytes → Except Error Bytes) :
    outcome (consuming read) s = read s.1 >>= fun rest => .ok ((), rest, s.2) := by
  unfold consuming
  rw [outcome_reading]
  cases read s.1 with
  | ok r => rfl
  | error e => rfl

@[simp] theorem outcome_calling (call : σ → Except Error σ) :
    outcome (calling call) s = call s.2 >>= fun st => .ok ((), s.1, st) := by
  unfold outcome calling
  cases call s.2 with
  | ok st' => rfl
  | error e => rfl

@[simp] theorem outcome_throwWhen (c : Prop) [Decidable c] (e : Error) :
    outcome (throwWhen c e : ParseM σ Unit) s
      = throwIf c e >>= fun _ => .ok ((), s) := by
  unfold outcome throwWhen
  cases throwIf c e with
  | ok u => rfl
  | error e => rfl

@[simp] theorem outcome_fromExcept (x : Except Error α) :
    outcome (Effect.fromExcept x : ParseM σ α) s = x >>= fun a => .ok (a, s) := by
  unfold outcome
  cases x with
  | ok a => rfl
  | error e => rfl

@[simp] theorem outcome_sourceLeft :
    outcome (sourceLeft : ParseM σ Bytes) s = .ok (s.1, s) := rfl

end Outcome

end ParseM

open ParseM Effect

variable {σ : Type} (sink : FileSystemObjectSink σ)

/-- `Source::drainInto(Sink &, uint64_t len)`. -/
def restoreContents (path : NodePath) : Nat → Nat → ParseM σ Unit
  | _, 0 => pure ()
  | 0, _ + 1 => pure ()
  | rounds + 1, len + 1 => do
      let source ← sourceLeft
      throwWhen (source = []) .endOfFile
      let n := min (min (len + 1) 65536) source.length
      calling (sink.write path (source.take n))
      consuming fun source => .ok (source.drop n)
      restoreContents path rounds (len + 1 - n)

/-- `parseContents`. -/
def restoreBody (path : NodePath) : ParseM σ Unit := do
  let size ← reading readNum
  calling (sink.preallocateContents path size)
  if sink.skipContents then do
    let left ← fromExcept (alignUp8 size)
    consuming (skip left)
  else do
    restoreContents sink path size size
    consuming (readPadding size)

/-- `parseExecutable`: the tag that comes after the marker. -/
def restoreExecutable (path : NodePath) (t : Bytes) : ParseM σ Bytes :=
  if t = ascii "executable" then do
    let s2 ← reading (readString 0)
    throwWhen (s2 ≠ []) (badArchive "executable marker has non-empty value")
    calling (sink.isExecutable path)
    reading (readString narMaxTag)
  else pure t

/-- `parseRegular`. -/
def restoreRegular (path : NodePath) : ParseM σ Unit := do
  calling (sink.createRegularFile path)
  let t ← reading (readString narMaxTag)
  let t ← restoreExecutable sink path t
  throwWhen (t ≠ ascii "contents") (badArchive s!"expected tag 'contents', got '{showBytes t}'")
  restoreBody sink path
  consuming (expectTag ")")
  calling (sink.finishRegularFile path)

/-- `parseSymlink`. -/
def restoreSymlink (path : NodePath) : ParseM σ Unit := do
  consuming (expectTag "target")
  let target ← reading (readString narMaxTarget)
  throwWhen (target = [] ∨ 0 ∈ target) (badArchive "NAR contains invalid symlink target")
  calling (sink.createSymlink path target)
  consuming (expectTag ")")

/-- `parseEntries`. -/
def restoreEntries (cfg : ArchiveSettings) (restoreNode : NodePath → ParseM σ Unit)
    (path : NodePath) : Nat → List (Bytes × Nat) → Bytes → ParseM σ Unit
  | 0, _, _ => throw .endOfFile
  | rounds + 1, names, prevName => do
      let t ← reading (readString narMaxTag)
      if t = ascii ")" then pure ()
      else do
        throwWhen (t ≠ ascii "entry")
          (badArchive s!"expected tag 'entry' or ')', got '{showBytes t}'")
        consuming (expectTag "(")
        consuming (expectTag "name")
        let name ← reading (readString narMaxName)
        throwWhen (invalidName name)
          (badArchive s!"NAR contains invalid file name '{showBytes name}'")
        throwWhen (name ≤ prevName) (badArchive "NAR directory is not sorted")
        let r ← fromExcept (entryName cfg names name)
        consuming (expectTag "node")
        restoreNode (path ++ [r.1])
        consuming (expectTag ")")
        restoreEntries cfg restoreNode path rounds r.2 name

/-- `parse`. -/
def restoreNode (cfg : ArchiveSettings) : Nat → NodePath → ParseM σ Unit
  | 0, _ => throw (badArchive s!"NAR directory nesting exceeds maximum depth of {narMaxDepth}")
  | levels + 1, path => do
      consuming (expectTag "(")
      consuming (expectTag "type")
      let type ← reading (readString narMaxTag)
      if type = ascii "regular" then restoreRegular sink path
      else if type = ascii "directory" then do
        calling (sink.createDirectory path)
        let source ← sourceLeft
        restoreEntries cfg (restoreNode cfg levels) path (source.length + 1) [] []
      else if type = ascii "symlink" then restoreSymlink sink path
      else throw (badArchive s!"unknown file type '{showBytes type}'")

/-- `parseDump`. -/
def restoreDump (cfg : ArchiveSettings) : ParseM σ Unit := do
  let version ← reading readVersion
  throwWhen (version ≠ narVersionMagic1) (badArchive "input doesn't look like a Nix archive")
  restoreNode sink cfg narMaxDepth []

-- ============================================================================
-- The two parsers agree
-- ============================================================================

variable {sink} {cfg : ArchiveSettings}

theorem except_bind_assoc {ε α β γ : Type} (x : Except ε α) (f : α → Except ε β)
    (g : β → Except ε γ) : (x >>= f) >>= g = x >>= fun a => f a >>= g := by
  cases x with
  | ok a => rfl
  | error e => rfl

theorem restoreContents_outcome (path : NodePath) (rounds len : Nat) (s : Bytes × σ) :
    outcome (restoreContents sink path rounds len) s
      = drainInto (sink.write path) rounds len s.1 s.2 >>= fun r => .ok ((), r) := by
  induction rounds generalizing len s with
  | zero =>
      cases len with
      | zero => rfl
      | succ len => rfl
  | succ rounds ih =>
      cases len with
      | zero => rfl
      | succ len =>
          simp only [restoreContents, drainInto, outcome_bind, outcome_sourceLeft, ok_bind,
            outcome_throwWhen, except_bind_assoc, outcome_calling, outcome_consuming, ih]

theorem restoreBody_outcome (path : NodePath) (s : Bytes × σ) :
    outcome (restoreBody sink path) s
      = parseContents sink path s.1 s.2 >>= fun r => .ok ((), r) := by
  unfold restoreBody parseContents
  cases sink.skipContents with
  | true =>
      simp only [if_true, outcome_bind, outcome_reading, except_bind_assoc, ok_bind,
        outcome_calling, outcome_fromExcept, outcome_consuming, pure_eq_ok]
  | false =>
      simp only [Bool.false_eq_true, if_false, outcome_bind, outcome_reading, except_bind_assoc,
        ok_bind, outcome_calling, restoreContents_outcome, outcome_consuming, pure_eq_ok]

theorem restoreExecutable_outcome (path : NodePath) (t : Bytes) (s : Bytes × σ) :
    outcome (restoreExecutable sink path t) s
      = parseExecutable sink path t s.1 s.2 >>= fun r => .ok (r.1, r.2.1, r.2.2) := by
  unfold restoreExecutable parseExecutable
  by_cases ht : t = ascii "executable"
  · simp only [if_pos ht, outcome_bind, outcome_reading, except_bind_assoc, ok_bind,
      outcome_throwWhen, outcome_calling, pure_eq_ok]
  · simp only [if_neg ht, outcome_pure, ok_bind]

theorem restoreRegular_outcome (path : NodePath) (s : Bytes × σ) :
    outcome (restoreRegular sink path) s
      = parseRegular sink path s.1 s.2 >>= fun r => .ok ((), r) := by
  simp only [restoreRegular, parseRegular, outcome_bind, outcome_calling, except_bind_assoc,
    ok_bind, outcome_reading, restoreExecutable_outcome, outcome_throwWhen, restoreBody_outcome,
    outcome_consuming, pure_eq_ok]

theorem restoreSymlink_outcome (path : NodePath) (s : Bytes × σ) :
    outcome (restoreSymlink sink path) s
      = parseSymlink sink path s.1 s.2 >>= fun r => .ok ((), r) := by
  simp only [restoreSymlink, parseSymlink, outcome_bind, outcome_calling, except_bind_assoc,
    ok_bind, outcome_reading, outcome_throwWhen, outcome_consuming, pure_eq_ok]

theorem restoreEntries_outcome {restore : NodePath → ParseM σ Unit}
    {parse : NodePath → Bytes → σ → Except Error (Bytes × σ)}
    (hnode : ∀ path s,
      outcome (restore path) s = parse path s.1 s.2 >>= fun r => .ok ((), r))
    (path : NodePath) (rounds : Nat) (names : List (Bytes × Nat)) (prevName : Bytes)
    (s : Bytes × σ) :
    outcome (restoreEntries cfg restore path rounds names prevName) s
      = parseEntries cfg parse path rounds names prevName s.1 s.2 >>= fun r => .ok ((), r) := by
  induction rounds generalizing names prevName s with
  | zero => rfl
  | succ rounds ih =>
      simp only [restoreEntries, parseEntries, outcome_bind, outcome_reading, except_bind_assoc,
        ok_bind]
      congr 1
      funext r
      by_cases ht : r.1 = ascii ")"
      · simp only [if_pos ht, outcome_pure, ok_bind, pure_eq_ok]
      · simp only [if_neg ht, outcome_bind, outcome_throwWhen, except_bind_assoc, ok_bind,
          outcome_consuming, outcome_reading, outcome_fromExcept, hnode, ih]

theorem restoreNode_outcome (levels : Nat) (path : NodePath) (s : Bytes × σ) :
    outcome (restoreNode sink cfg levels path) s
      = parse cfg sink levels path s.1 s.2 >>= fun r => .ok ((), r) := by
  induction levels generalizing path s with
  | zero => rfl
  | succ levels ih =>
      simp only [restoreNode, parse, outcome_bind, outcome_consuming, outcome_reading,
        except_bind_assoc, ok_bind]
      congr 1
      funext source
      congr 1
      funext source
      congr 1
      funext r
      by_cases hregular : r.1 = ascii "regular"
      · simp only [if_pos hregular, restoreRegular_outcome]
      by_cases hdirectory : r.1 = ascii "directory"
      · simp only [if_neg hregular, if_pos hdirectory, outcome_bind, outcome_calling,
          except_bind_assoc, ok_bind, outcome_sourceLeft, restoreEntries_outcome ih]
      by_cases hsymlink : r.1 = ascii "symlink"
      · simp only [if_neg hregular, if_neg hdirectory, if_pos hsymlink, restoreSymlink_outcome]
      · simp only [if_neg hregular, if_neg hdirectory, if_neg hsymlink, outcome_throw]
        rfl

/-- On what it returns and throws, the parser is `parseDump`. -/
theorem restoreDump_outcome (s : Bytes × σ) :
    outcome (restoreDump sink cfg) s
      = parseDump cfg sink s.1 s.2 >>= fun r => .ok ((), r) := by
  simp only [restoreDump, parseDump, outcome_bind, outcome_reading, except_bind_assoc, ok_bind,
    outcome_throwWhen, restoreNode_outcome]

-- ============================================================================
-- restorePath
-- ============================================================================

/-- `restorePath` at a place where nothing is: what is there afterwards, and
    the part of the source that was read, unless it throws. -/
def restorePath (source : Bytes) : Option File × Except Error Bytes :=
  match restoreDump restoreSink NarNode.plain (source, none) with
  | .ok _ (rest, tree) => (tree, .ok (source.take (source.length - rest.length)))
  | .error e (_, tree) => (tree, .error e)

theorem restoreDump_eq_ok {source rest : Bytes} {tree : Option File} :
    restoreDump restoreSink NarNode.plain (source, none) = .ok () (rest, tree) ↔
      ∃ f : File, tree = some f ∧ f.WithinLimits narMaxDepth ∧ ∃ nar,
        dumpPath NarNode.plain defaultPathFilter f = .ok nar ∧ source = nar ++ rest := by
  have hfollow : outcome (restoreDump restoreSink NarNode.plain) (source, none)
      = parseDump NarNode.plain restoreSink source none >>= fun r => .ok ((), r) :=
    restoreDump_outcome (source, none)
  have hparse : restoreDump restoreSink NarNode.plain (source, none) = .ok () (rest, tree) ↔
      parseDump NarNode.plain restoreSink source none = .ok (rest, tree) := by
    unfold outcome at hfollow
    cases hrun : restoreDump restoreSink NarNode.plain (source, none) with
    | ok u r =>
        rw [hrun] at hfollow
        cases hdump : parseDump NarNode.plain restoreSink source none with
        | ok r' =>
            rw [hdump] at hfollow
            cases hfollow
            simp
        | error e =>
            rw [hdump] at hfollow
            cases hfollow
    | error e r =>
        rw [hrun] at hfollow
        cases hdump : parseDump NarNode.plain restoreSink source none with
        | ok r' =>
            rw [hdump] at hfollow
            cases hfollow
        | error e' => simp
  rw [hparse, NarNode.parseDump_builds NarNode.restoreSink_builds]
  constructor
  · rintro ⟨f, rfl, hlim, rfl⟩
    exact ⟨f, rfl, hlim, _, NarNode.dumpPath_eq_ok hlim, by rw [List.append_assoc]⟩
  · rintro ⟨f, rfl, hlim, nar, hnar, rfl⟩
    rw [NarNode.dumpPath_eq_ok hlim] at hnar
    cases hnar
    exact ⟨f, rfl, hlim, by rw [List.append_assoc]⟩

/-- `restorePath` returns exactly if the source starts with the archive of a
    tree within the limits; it has read that archive then, and the tree is
    there. -/
theorem restorePath_eq_ok {source nar : Bytes} {tree : Option File} :
    restorePath source = (tree, .ok nar) ↔
      ∃ f : File, tree = some f ∧ f.WithinLimits narMaxDepth ∧
        dumpPath NarNode.plain defaultPathFilter f = .ok nar ∧ nar <+: source := by
  have htake : ∀ nar rest : Bytes,
      (nar ++ rest).take ((nar ++ rest).length - rest.length) = nar := by
    intro nar rest
    rw [List.length_append, Nat.add_sub_cancel, List.take_left]
  unfold restorePath
  constructor
  · intro h
    split at h
    · next u rest tree' hrun =>
        obtain ⟨f, rfl, hlim, nar', hnar, rfl⟩ := restoreDump_eq_ok.mp hrun
        rw [htake] at h
        cases h
        exact ⟨f, rfl, hlim, hnar, List.prefix_append _ _⟩
    · cases h
  · rintro ⟨f, rfl, hlim, hnar, rest, rfl⟩
    rw [restoreDump_eq_ok.mpr ⟨f, rfl, hlim, nar, hnar, rfl⟩]
    simp only [htake]

end NixStore
