/-
  NixStore.Util.Archive

  The Nix archive format: `SourceAccessor::dumpPath`, which writes a tree, and
  `parseDump`, which reads one into a sink (`libutil/archive.cc`).
-/

import NixStore.Util.FsSink

namespace NixStore

open SortedMap

/-- `ArchiveSettings`. -/
structure ArchiveSettings where
  useCaseHack : Bool := false

/-- `narMaxDepth`. -/
def narMaxDepth : Nat := 64

/-- `narVersionMagic1`. -/
def narVersionMagic1 : Bytes := ascii "nix-archive-1"

/-- `caseHackSuffix`. -/
def caseHackSuffix : Bytes := ascii "~nix~case~hack~"

/-- `writeString` of a keyword. -/
def tag (s : String) : Bytes := writeString (ascii s)

/-! ## `dumpPath` -/

/-- A `PathFilter`, on the components of the path it is given. -/
abbrev PathFilter := NodePath → Bool

/-- `defaultPathFilter`. -/
def defaultPathFilter : PathFilter := fun _ => true

/-- `s.find(pat)` followed by `s.erase(pos)`: the part of `s` before the first
    occurrence of `pat`, or `none` when there is none. -/
def cutAt (pat : Bytes) : Bytes → Option Bytes
  | [] => if pat.isPrefixOf [] then some [] else none
  | b :: s =>
      if pat.isPrefixOf (b :: s) then some []
      else (cutAt pat s).map (b :: ·)

/-- The map `unhacked` from archive names to names on disk, here with the
    dumped node beside the latter. -/
def unhack {β : Type} (cfg : ArchiveSettings) (path : NodePath) :
    List (Bytes × β) → List (Bytes × Bytes × β) → Except Error (List (Bytes × Bytes × β))
  | [], acc => .ok acc
  | (onDisk, body) :: rest, acc =>
      if cfg.useCaseHack then
        let name := (cutAt caseHackSuffix onDisk).getD onDisk
        match emplace name (onDisk, body) acc with
        | some acc' => unhack cfg path rest acc'
        | none =>
            let other := ((find? name acc).map (·.1)).getD []
            .error (.error (s!"file name collision between '{showPath (path ++ [other])}'" ++
              s!" and '{showPath (path ++ [onDisk])}'"))
      else unhack cfg path rest ((emplace onDisk (onDisk, body) acc).getD acc)

/-- The loop over `unhacked`: each entry the filter lets through. -/
def dumpEntries (filter : PathFilter) (filterPath : NodePath) :
    List (Bytes × Bytes × Except Error Bytes) → Except Error Bytes
  | [] => .ok []
  | (name, _, body) :: rest =>
      if filter (filterPath ++ [name]) then do
        let node ← body
        let tail ← dumpEntries filter filterPath rest
        pure (tag "entry" ++ tag "(" ++ tag "name" ++ writeString name ++ tag "node" ++
          node ++ tag ")" ++ tail)
      else dumpEntries filter filterPath rest

mutual

/-- The recursive lambda `dump` of `dumpPath`.  `path` is the node's path on
    disk, which is also its `filterPath`. -/
def dump (cfg : ArchiveSettings) (filter : PathFilter) :
    File → NodePath → Nat → Except Error Bytes
  | .regular executable contents, path, depth => do
      throwIf (depth ≥ narMaxDepth) (.error
        s!"path '{showPath path}' exceeds maximum NAR directory depth of {narMaxDepth}")
      pure (tag "(" ++ tag "type" ++ tag "regular" ++
        (if executable then tag "executable" ++ tag "" else []) ++
        tag "contents" ++ writeNum contents.length ++ contents ++
        writePadding contents.length ++ tag ")")
  | .directory entries, path, depth => do
      throwIf (depth ≥ narMaxDepth) (.error
        s!"path '{showPath path}' exceeds maximum NAR directory depth of {narMaxDepth}")
      let unhacked ← unhack cfg path (dumpNodes cfg filter entries path depth) []
      let body ← dumpEntries filter path unhacked
      pure (tag "(" ++ tag "type" ++ tag "directory" ++ body ++ tag ")")
  | .symlink target, path, depth => do
      throwIf (depth ≥ narMaxDepth) (.error
        s!"path '{showPath path}' exceeds maximum NAR directory depth of {narMaxDepth}")
      pure (tag "(" ++ tag "type" ++ tag "symlink" ++ tag "target" ++ writeString target ++
        tag ")")

/-- What `dump` does for each directory entry, in the order of the directory's
    map; whether an entry is written at all is decided in `dumpEntries`. -/
def dumpNodes (cfg : ArchiveSettings) (filter : PathFilter) :
    List (Bytes × File) → NodePath → Nat → List (Bytes × Except Error Bytes)
  | [], _, _ => []
  | (name, f) :: rest, path, depth =>
      (name, dump cfg filter f (path ++ [name]) (depth + 1)) ::
        dumpNodes cfg filter rest path depth

end

/-- `SourceAccessor::dumpPath` of the accessor's root. -/
def dumpPath (cfg : ArchiveSettings) (filter : PathFilter) (file : File) : Except Error Bytes := do
  let body ← dump cfg filter file [] 0
  pure (writeString narVersionMagic1 ++ body)

/-! ## `parseDump` -/

/-- `narMaxTag`, `narMaxName` and `narMaxTarget`. -/
def narMaxTag : Nat := 32
def narMaxName : Nat := 255
def narMaxTarget : Nat := 4095

/-- `badArchive`. -/
def badArchive (s : String) : Error := .serialisation ("bad archive: " ++ s)

/-- The lambda `expectTag`. -/
def expectTag (expected : String) (source : Bytes) : Except Error Bytes := do
  let (got, source) ← readString narMaxTag source
  throwIf (got ≠ ascii expected) (badArchive s!"expected tag '{expected}', got '{showBytes got}'")
  pure source

/-- `alignUp(val, 8)` on 64-bit values. -/
def alignUp8 (val : Nat) : Except Error Nat := do
  throwIf (val > 2 ^ 64 - 1 - (8 - 1))
    (.error s!"can't align {val} to 8: value is too large")
  pure ((val + 8 - 1) / 8 * 8)

/-- `Source::skip` (and the loop around it in `parseContents`, which runs once
    where `size_t` has 64 bits). -/
def skip (len : Nat) (source : Bytes) : Except Error Bytes := do
  let (_, source) ← readExact len source
  pure source

/-- `Source::drainInto(Sink &, uint64_t len)`: up to 65536 bytes at a time.
    Each round delivers at least one byte, so `len` rounds are enough. -/
def drainInto {σ : Type} (write : Bytes → σ → Except Error σ) :
    Nat → Nat → Bytes → σ → Except Error (Bytes × σ)
  | _, 0, source, st => .ok (source, st)
  | 0, _ + 1, source, st => .ok (source, st)
  | rounds + 1, len + 1, source, st => do
      throwIf (source = []) .endOfFile
      let n := min (min (len + 1) 65536) source.length
      let st ← write (source.take n) st
      drainInto write rounds (len + 1 - n) (source.drop n) st

/-- `parseContents`. -/
def parseContents {σ : Type} (sink : FileSystemObjectSink σ) (path : NodePath) (source : Bytes)
    (st : σ) : Except Error (Bytes × σ) := do
  let (size, source) ← readNum source
  let st ← sink.preallocateContents path size st
  if sink.skipContents then
    let left ← alignUp8 size
    let source ← skip left source
    pure (source, st)
  else
    let (source, st) ← drainInto (sink.write path) size size source st
    let source ← readPadding size source
    pure (source, st)

/-- The name test of the directory loop. -/
def invalidName (name : Bytes) : Prop :=
  name = [] ∨ name = ascii "." ∨ name = ascii ".." ∨ 0x2f ∈ name ∨ 0 ∈ name

instance (name : Bytes) : Decidable (invalidName name) := by
  unfold invalidName
  infer_instance

/-- `strcasecmp(a, b) == 0` (names hold no NUL). -/
def caseInsensitiveEq (a b : Bytes) : Bool :=
  let lower : UInt8 → UInt8 := fun c => if 0x41 ≤ c ∧ c ≤ 0x5a then c + 0x20 else c
  a.map lower == b.map lower

/-- The case hack of the directory loop: the name the entry gets on disk, and
    `names` afterwards (each name seen with its number of collisions). -/
def caseHack (names : List (Bytes × Nat)) (name : Bytes) :
    Except Error (Bytes × List (Bytes × Nat)) :=
  match names.find? fun e => caseInsensitiveEq e.1 name with
  | some (first, count) => do
      let names' := adjust first (· + 1) names
      let hacked := name ++ caseHackSuffix ++ ascii (toString (count + 1))
      match names'.find? fun e => caseInsensitiveEq e.1 hacked with
      | some (other, _) => throw (badArchive
          (s!"NAR contains file name '{showBytes name}' that collides" ++
            s!" with case-hacked file name '{showBytes other}'"))
      | none => pure (hacked, names')
  | none => .ok (name, names ++ [(name, 0)])

/-- The name an entry is created under, with the names seen so far. -/
def entryName (cfg : ArchiveSettings) (names : List (Bytes × Nat)) (name : Bytes) :
    Except Error (Bytes × List (Bytes × Nat)) :=
  if cfg.useCaseHack then caseHack names name else .ok (name, names)

/-- The `while (1)` loop over the entries of a directory.  Every round reads at
    least one string, so a round per byte of the source is enough. -/
def parseEntries {σ : Type} (cfg : ArchiveSettings)
    (parseNode : NodePath → Bytes → σ → Except Error (Bytes × σ)) (path : NodePath) :
    Nat → List (Bytes × Nat) → Bytes → Bytes → σ → Except Error (Bytes × σ)
  | 0, _, _, _, _ => .error .endOfFile
  | rounds + 1, names, prevName, source, st => do
      let (t, source) ← readString narMaxTag source
      if t = ascii ")" then pure (source, st)
      else
        throwIf (t ≠ ascii "entry")
          (badArchive s!"expected tag 'entry' or ')', got '{showBytes t}'")
        let source ← expectTag "(" source
        let source ← expectTag "name" source
        let (name, source) ← readString narMaxName source
        throwIf (invalidName name)
          (badArchive s!"NAR contains invalid file name '{showBytes name}'")
        throwIf (name ≤ prevName) (badArchive "NAR directory is not sorted")
        let (onDisk, names) ← entryName cfg names name
        let source ← expectTag "node" source
        let (source, st) ← parseNode (path ++ [onDisk]) source st
        let source ← expectTag ")" source
        parseEntries cfg parseNode path rounds names name source st

/-- The optional executable marker of a regular file; `t` is the tag just read.
    Returns the tag that comes after it. -/
def parseExecutable {σ : Type} (sink : FileSystemObjectSink σ) (path : NodePath) (t : Bytes)
    (source : Bytes) (st : σ) : Except Error (Bytes × Bytes × σ) :=
  if t = ascii "executable" then do
    let (s2, source) ← readString 0 source
    throwIf (s2 ≠ []) (badArchive "executable marker has non-empty value")
    let st ← sink.isExecutable path st
    let (t, source) ← readString narMaxTag source
    pure (t, source, st)
  else .ok (t, source, st)

/-- The body of `parse` for a regular file, after its type. -/
def parseRegular {σ : Type} (sink : FileSystemObjectSink σ) (path : NodePath) (source : Bytes)
    (st : σ) : Except Error (Bytes × σ) := do
  let st ← sink.createRegularFile path st
  let (t, source) ← readString narMaxTag source
  let (t, source, st) ← parseExecutable sink path t source st
  throwIf (t ≠ ascii "contents") (badArchive s!"expected tag 'contents', got '{showBytes t}'")
  let (source, st) ← parseContents sink path source st
  let source ← expectTag ")" source
  let st ← sink.finishRegularFile path st
  pure (source, st)

/-- The body of `parse` for a symlink, after its type. -/
def parseSymlink {σ : Type} (sink : FileSystemObjectSink σ) (path : NodePath) (source : Bytes)
    (st : σ) : Except Error (Bytes × σ) := do
  let source ← expectTag "target" source
  let (target, source) ← readString narMaxTarget source
  throwIf (target = [] ∨ 0 ∈ target) (badArchive "NAR contains invalid symlink target")
  let st ← sink.createSymlink path target st
  let source ← expectTag ")" source
  pure (source, st)

/-- `parse`; the first argument is `narMaxDepth - depth`, the nesting levels
    that are left. -/
def parse {σ : Type} (cfg : ArchiveSettings) (sink : FileSystemObjectSink σ) :
    Nat → NodePath → Bytes → σ → Except Error (Bytes × σ)
  | 0, _, _, _ => .error (badArchive
      s!"NAR directory nesting exceeds maximum depth of {narMaxDepth}")
  | levels + 1, path, source, st => do
      let source ← expectTag "(" source
      let source ← expectTag "type" source
      let (type, source) ← readString narMaxTag source
      if type = ascii "regular" then parseRegular sink path source st
      else if type = ascii "directory" then do
        let st ← sink.createDirectory path st
        parseEntries cfg (parse cfg sink levels) path (source.length + 1) [] [] source st
      else if type = ascii "symlink" then parseSymlink sink path source st
      else throw (badArchive s!"unknown file type '{showBytes type}'")

/-- The version string; one that cannot be decoded counts as empty. -/
def readVersion (source : Bytes) : Except Error (Bytes × Bytes) :=
  match readString narVersionMagic1.length source with
  | .error (.serialisation _) => .ok ([], source)
  | r => r

/-- `parseDump`. -/
def parseDump {σ : Type} (cfg : ArchiveSettings) (sink : FileSystemObjectSink σ) (source : Bytes)
    (st : σ) : Except Error (Bytes × σ) := do
  let (version, source) ← readVersion source
  throwIf (version ≠ narVersionMagic1) (badArchive "input doesn't look like a Nix archive")
  parse cfg sink narMaxDepth [] source st

end NixStore
