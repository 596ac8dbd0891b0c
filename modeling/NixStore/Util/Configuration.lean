/-
  NixStore.Util.Configuration

  `parseConfigFiles` (`libutil/configuration.cc`): the settings of a
  configuration file and of the files it includes.

  A file is parsed while the files that include it are, and the position in it
  is an `unsigned int`, of 32 bits.  The parser is a program that jumps from
  line to line and calls itself for an include (`parseConfigFiles_eq_run`), so
  it ends just when it is not led round in a circle (`Lib.Calls`).
-/

import NixStore.Store.Path
import NixStore.Util.Signature
import NixStore.Lib.Calls
import Mathlib.Data.Finite.Prod

namespace NixStore
namespace Configuration

-- ============================================================================
-- A line
-- ============================================================================

/-- The separators of `tokenizeString`. -/
def isSeparator (c : UInt8) : Bool := c = 0x20 || c = 0x09 || c = 0x0a || c = 0x0d

/-- `tokenizeString<std::vector<std::string>>(line)`. -/
def tokenizeLine (line : Bytes) : List Bytes :=
  (line.splitOnP isSeparator).filter (· ≠ [])

/-- `path.parent_path()`. -/
def parentPath (path : Bytes) : Bytes :=
  if 0x2f ∈ path then
    if (path.reverse.dropWhile (· ≠ 0x2f)).tail = [] then ascii "/"
    else (path.reverse.dropWhile (· ≠ 0x2f)).tail.reverse
  else []

/-- `dir / path`, for a relative path. -/
def appendPath (dir path : Bytes) : Bytes :=
  if dir = [] ∨ dir.getLast? = some 0x2f then dir ++ path else dir ++ ascii "/" ++ path

/-- `absPath` of a path that is named in the file at `path`. -/
def includedPath (path token : Bytes) : Except Error Bytes :=
  (canonPath (if token.head? = some 0x2f then token else appendPath (parentPath path) token)).map
    renderPath

/-- What a line asks for. -/
inductive Line where
  | skip
  | setting (name value : Bytes)
  | include (ignoreMissing : Bool) (p : Bytes)
  | error (e : Error)
deriving DecidableEq

/-- `UsageError("syntax error in configuration line …")`. -/
def syntaxError (path line : Bytes) : Error :=
  .usage s!"syntax error in configuration line '{showBytes line}' in {pathFmt path}"

/-- What the tokens of a line ask for. -/
def lineOf (path line : Bytes) : List Bytes → Line
  | [] => .skip
  | [_] => .error (syntaxError path line)
  | name :: second :: values =>
      if name = ascii "include" ∨ name = ascii "!include" then
        if values ≠ [] then .error (syntaxError path line)
        else
          match includedPath path second with
          | .error e => .error e
          | .ok p => .include (name = ascii "!include") p
      else if second ≠ ascii "=" then .error (syntaxError path line)
      else .setting name (concatStringsSep (ascii " ") values)

/-- A line without its comment. -/
def uncomment (line : Bytes) : Bytes := line.takeWhile (· ≠ 0x23)

/-- What a line asks for. -/
def parseLine (path line : Bytes) : Line :=
  lineOf path (uncomment line) (tokenizeLine (uncomment line))

/-- The loop that reads a line, for at most so many steps. -/
def readLine (contents : Bytes) : Nat → UInt32 → Bytes → Option (Bytes × UInt32)
  | 0, _, _ => none
  | fuel + 1, pos, line =>
      match contents[pos.toNat]? with
      | none => some (line, pos + 1)
      | some c =>
          if c = 0x0a then some (line, pos + 1)
          else readLine contents fuel (pos + 1) (line ++ [c])

/-- The loop that reads a line.  There are `2 ^ 32` positions, so after as many
    steps it goes round for ever (`nextLine_eq_some`). -/
def nextLine (contents : Bytes) (pos : UInt32) : Option (Bytes × UInt32) :=
  readLine contents (2 ^ 32) pos []

-- ============================================================================
-- parseConfigFiles
-- ============================================================================

/-- What `pathExists` and `readFile` find. -/
inductive Lookup where
  | missing
  /-- `pathExists` throws a `SystemError`. -/
  | statFails
  /-- `readFile` throws a `SystemError`. -/
  | unreadable
  | file (contents : Bytes)

/-- What is thrown. -/
inductive ConfigError where
  | systemError
  | error (e : Error)
deriving DecidableEq

/-- `parsedContents`. -/
abbrev Settings := List (Bytes × Bytes)

/-- A file, and the position in it. -/
structure Point where
  contents : Bytes
  path : Bytes
  pos : UInt32

/-- `Error("file %s included from %s not found")`. -/
def notFound (p path : Bytes) : ConfigError :=
  .error (.error s!"file {pathFmt p} included from {pathFmt path} not found")

/-- `path.c_str()`, as the kernel reads it. -/
def kernelPath (p : Bytes) : Bytes := p.takeWhile (· ≠ 0)

/-- `parseConfigFiles` from a position on, with so much fuel. -/
def parseConfigFiles (lookup : Bytes → Lookup) :
    Nat → Point → Settings → Option (Settings × Except ConfigError Unit)
  | 0, _, _ => none
  | fuel + 1, at_, parsed =>
      if at_.pos.toNat < at_.contents.length then
        match nextLine at_.contents at_.pos with
        | none => none
        | some (line, pos) =>
            match parseLine at_.path line with
            | .skip => parseConfigFiles lookup fuel { at_ with pos := pos } parsed
            | .error e => some (parsed, .error (.error e))
            | .setting name value =>
                parseConfigFiles lookup fuel { at_ with pos := pos } (parsed ++ [(name, value)])
            | .include ignoreMissing p =>
                match lookup (kernelPath p) with
                | .statFails => some (parsed, .error .systemError)
                | .missing =>
                    if ignoreMissing then
                      parseConfigFiles lookup fuel { at_ with pos := pos } parsed
                    else some (parsed, .error (notFound p at_.path))
                | .unreadable => parseConfigFiles lookup fuel { at_ with pos := pos } parsed
                | .file included =>
                    match parseConfigFiles lookup fuel
                        { contents := included, path := p, pos := 0 } parsed with
                    | none => none
                    -- what was parsed before the exception stays
                    | some (parsed', .error .systemError) =>
                        parseConfigFiles lookup fuel { at_ with pos := pos } parsed'
                    | some (parsed', .error (.error e)) => some (parsed', .error (.error e))
                    | some (parsed', .ok ()) =>
                        parseConfigFiles lookup fuel { at_ with pos := pos } parsed'
      else some (parsed, .ok ())

/-- `parseConfigFiles` comes to an end, with settings or an exception. -/
def Terminates (lookup : Bytes → Lookup) (contents path : Bytes) : Prop :=
  ∃ fuel r, parseConfigFiles lookup fuel { contents := contents, path := path, pos := 0 } [] =
    some r

-- ============================================================================
-- The positions of a line
-- ============================================================================

/-- The loop of a line is at a character of the line. -/
def InLine (contents : Bytes) (pos : UInt32) : Prop :=
  ∃ c, contents[pos.toNat]? = some c ∧ c ≠ 0x0a

/-- The first `2 ^ 32` characters are there and none of them ends a line. -/
def EndlessLine (contents : Bytes) : Prop := ∀ pos, InLine contents pos

theorem readLine_eq_none {contents : Bytes} {fuel : Nat} {pos : UInt32} {line : Bytes} :
    readLine contents fuel pos line = none ↔
      ∀ k, k < fuel → InLine contents (pos + UInt32.ofNat k) := by
  induction fuel generalizing pos line with
  | zero => exact iff_of_true rfl fun k hk => absurd hk (Nat.not_lt_zero k)
  | succ fuel ih =>
      have hshift : (∀ k, k < fuel + 1 → InLine contents (pos + UInt32.ofNat k)) ↔
          InLine contents pos ∧ ∀ k, k < fuel → InLine contents (pos + 1 + UInt32.ofNat k) := by
        have hpos : ∀ k, pos + UInt32.ofNat (k + 1) = pos + 1 + UInt32.ofNat k := by
          intro k
          rw [UInt32.ofNat_add, UInt32.add_assoc, UInt32.add_comm 1]
          rfl
        constructor
        · intro h
          refine ⟨?_, fun k hk => ?_⟩
          · simpa using h 0 (Nat.succ_pos fuel)
          · rw [← hpos]
            exact h (k + 1) (Nat.succ_lt_succ hk)
        · rintro ⟨h0, h⟩ k hk
          cases k with
          | zero => simpa using h0
          | succ k =>
              rw [hpos]
              exact h k (Nat.lt_of_succ_lt_succ hk)
      rw [hshift, readLine]
      split
      · next hend =>
        refine iff_of_false (Option.some_ne_none _) ?_
        rintro ⟨⟨c, hc, -⟩, -⟩
        rw [hend] at hc
        cases hc
      · next c hc =>
        split
        · next hnewline =>
          refine iff_of_false (Option.some_ne_none _) ?_
          rintro ⟨⟨c', hc', hne⟩, -⟩
          rw [hc] at hc'
          cases hc'
          exact hne hnewline
        · next hchar =>
          rw [ih]
          exact ⟨fun h => ⟨⟨c, hc, hchar⟩, h⟩, fun h => h.2⟩

/-- Wherever it begins, a line is not ended just when no position ends one. -/
theorem nextLine_eq_none {contents : Bytes} {pos : UInt32} :
    nextLine contents pos = none ↔ EndlessLine contents := by
  rw [nextLine, readLine_eq_none]
  constructor
  · intro h i
    have hi := h (i - pos).toNat (i - pos).toNat_lt
    rwa [UInt32.ofNat_toNat, UInt32.add_comm, UInt32.sub_add_cancel] at hi
  · exact fun h k _ => h _

theorem readLine_mono {contents : Bytes} {fuel more : Nat} {pos : UInt32} {line : Bytes}
    {r : Bytes × UInt32} (h : readLine contents fuel pos line = some r) (hle : fuel ≤ more) :
    readLine contents more pos line = some r := by
  induction fuel generalizing more pos line with
  | zero => cases h
  | succ fuel ih =>
      obtain ⟨more, rfl⟩ : ∃ k, more = k + 1 := ⟨more - 1, by omega⟩
      rw [readLine] at h ⊢
      split at h
      · exact h
      · split at h
        · next hnewline => rw [if_pos hnewline, h]
        · next hchar => rw [if_neg hchar, ih h (by omega)]

/-- `2 ^ 32` steps are as good as any number of them. -/
theorem nextLine_eq_some {contents : Bytes} {pos : UInt32} {r : Bytes × UInt32} :
    nextLine contents pos = some r ↔ ∃ fuel, readLine contents fuel pos [] = some r := by
  refine ⟨fun h => ⟨2 ^ 32, h⟩, ?_⟩
  rintro ⟨fuel, h⟩
  cases hnext : nextLine contents pos with
  | none =>
      have hnone : readLine contents fuel pos [] = none :=
        readLine_eq_none.mpr fun k _ => nextLine_eq_none.mp hnext _
      rw [hnone] at h
      cases h
  | some r' =>
      have heq := readLine_mono hnext (Nat.le_max_left (2 ^ 32) fuel)
      rw [readLine_mono h (Nat.le_max_right _ _)] at heq
      exact heq.symm

/-- In a file that is shorter than `2 ^ 32 - 1` bytes the next line begins
    later. -/
theorem readLine_later {contents : Bytes} {fuel : Nat} {pos : UInt32} {line : Bytes}
    {r : Bytes × UInt32} (hshort : contents.length + 1 < 2 ^ 32)
    (hpos : pos.toNat ≤ contents.length) (h : readLine contents fuel pos line = some r) :
    pos.toNat < r.2.toNat := by
  induction fuel generalizing pos line with
  | zero => cases h
  | succ fuel ih =>
      have hsucc : (pos + 1).toNat = pos.toNat + 1 := by
        rw [UInt32.toNat_add]
        exact Nat.mod_eq_of_lt (by show pos.toNat + 1 < 2 ^ 32; omega)
      rw [readLine] at h
      split at h
      · cases h
        show pos.toNat < (pos + 1).toNat
        omega
      · next c hc =>
        have hlt := (List.getElem?_eq_some_iff.mp hc).1
        split at h
        · cases h
          show pos.toNat < (pos + 1).toNat
          omega
        · have hlater := ih (by omega) h
          omega

-- ============================================================================
-- The parser as a program
-- ============================================================================

/-- The exceptions that the parser of the including file swallows. -/
def swallows : ConfigError → Bool
  | .systemError => true
  | .error _ => false

/-- What the parser does at a line, when the next one begins at `next`. -/
def lineStep (lookup : Bytes → Lookup) (path : Bytes) (next : Point) :
    Line → Calls.Step Point ConfigError Settings
  | .skip => .jump id next
  | .error e => .stop (.error (.error e))
  | .setting name value => .jump (· ++ [(name, value)]) next
  | .include ignoreMissing p =>
      match lookup (kernelPath p) with
      | .statFails => .stop (.error .systemError)
      | .missing => if ignoreMissing then .jump id next else .stop (.error (notFound p path))
      | .unreadable => .jump id next
      | .file included => .call { contents := included, path := p, pos := 0 } next

/-- What the parser does at a position. -/
def pointStep (lookup : Bytes → Lookup) (at_ : Point) : Calls.Step Point ConfigError Settings :=
  if at_.pos.toNat < at_.contents.length then
    match nextLine at_.contents at_.pos with
    | none => .stuck
    | some (line, pos) => lineStep lookup at_.path { at_ with pos := pos } (parseLine at_.path line)
  else .stop (.ok ())

/-- From one position the parser gets to another: the next line, if this one is
    no error and its include ends in none but a `SystemError`, or the beginning
    of the file that is included. -/
abbrev Leads (lookup : Bytes → Lookup) : Point → Point → Prop :=
  Calls.Leads (pointStep lookup) swallows

section Program

variable {lookup : Bytes → Lookup}

/-- `parseConfigFiles` is that program. -/
theorem parseConfigFiles_eq_run (fuel : Nat) (at_ : Point) (parsed : Settings) :
    parseConfigFiles lookup fuel at_ parsed =
      Calls.run (pointStep lookup) swallows fuel at_ parsed := by
  induction fuel generalizing at_ parsed with
  | zero => rfl
  | succ fuel ih =>
      rw [parseConfigFiles, Calls.run, pointStep]
      split
      · split
        · rfl
        · next line pos hline =>
          cases parseLine at_.path line with
          | skip => exact ih _ _
          | error e => rfl
          | setting name value => exact ih _ _
          | «include» ignoreMissing p =>
              simp only [lineStep]
              cases lookup (kernelPath p) with
              | statFails => rfl
              | unreadable => exact ih _ _
              | missing =>
                  cases ignoreMissing with
                  | false => rfl
                  | true => exact ih _ _
              | file included =>
                  simp only [ih]
                  split
                  · next hnone => rw [hnone]
                  · next parsed' hsystem =>
                    rw [hsystem]
                    rfl
                  · next parsed' e herror =>
                    rw [herror]
                    rfl
                  · next parsed' hok =>
                    rw [hok]
                    rfl
      · rfl

theorem lineStep_ne_stuck {path : Bytes} {next : Point} (line : Line) :
    lineStep lookup path next line ≠ .stuck := by
  unfold lineStep
  repeat' split
  all_goals exact fun h => nomatch h

theorem pointStep_eq_stuck {at_ : Point} :
    pointStep lookup at_ = .stuck ↔ EndlessLine at_.contents := by
  unfold pointStep
  split
  · next hin =>
    split
    · next hnone => exact iff_of_true rfl (nextLine_eq_none.mp hnone)
    · next line pos hline =>
      have hline' : ¬ EndlessLine at_.contents := by
        rw [← @nextLine_eq_none _ at_.pos, hline]
        exact Option.some_ne_none _
      exact iff_of_false (lineStep_ne_stuck _) hline'
  · next hout =>
    refine iff_of_false (fun h => nomatch h) fun hendless => ?_
    obtain ⟨c, hc, -⟩ := hendless at_.pos
    exact hout (List.getElem?_eq_some_iff.mp hc).1

theorem pointStep_of_line {at_ : Point} {line : Bytes} {pos : UInt32}
    (hin : at_.pos.toNat < at_.contents.length)
    (hline : nextLine at_.contents at_.pos = some (line, pos)) :
    pointStep lookup at_ =
      lineStep lookup at_.path { at_ with pos := pos } (parseLine at_.path line) := by
  rw [pointStep, if_pos hin, hline]

/-- What follows a line in its file. -/
def Follows (at_ next : Point) : Prop :=
  next.contents = at_.contents ∧ next.path = at_.path ∧
    at_.pos.toNat < at_.contents.length ∧
    ∃ line, nextLine at_.contents at_.pos = some (line, next.pos)

theorem pointStep_jump {at_ next : Point} {effect : Settings → Settings}
    (h : pointStep lookup at_ = .jump effect next) : Follows at_ next := by
  unfold pointStep at h
  split at h
  · next hin =>
    split at h
    · cases h
    · next line pos hline =>
      have hnext : next = { at_ with pos := pos } := by
        unfold lineStep at h
        repeat' split at h
        all_goals cases h <;> rfl
      rw [hnext]
      exact ⟨rfl, rfl, hin, line, hline⟩
  · cases h

theorem pointStep_call {at_ callee next : Point} (h : pointStep lookup at_ = .call callee next) :
    lookup (kernelPath callee.path) = .file callee.contents ∧ callee.pos = 0 ∧
      Follows at_ next := by
  unfold pointStep at h
  split at h
  · next hin =>
    split at h
    · cases h
    · next line pos hline =>
      unfold lineStep at h
      split at h
      · cases h
      · cases h
      · cases h
      · next ignoreMissing p hinclude =>
        split at h
        · cases h
        · split at h <;> cases h
        · cases h
        · next included hfile =>
          cases h
          exact ⟨hfile, rfl, rfl, rfl, hin, line, hline⟩
  · cases h

/-- On from line to line, a file that is short is never read from an earlier
    position again. -/
theorem follows_later {at_ at_' : Point} (hshort : at_.contents.length + 1 < 2 ^ 32)
    (h : Relation.TransGen Follows at_ at_') :
    at_'.contents = at_.contents ∧ at_.pos.toNat < at_'.pos.toNat := by
  induction h with
  | single h =>
      obtain ⟨hcontents, -, hin, line, hline⟩ := h
      exact ⟨hcontents, readLine_later hshort (Nat.le_of_lt hin) hline⟩
  | tail _ h ih =>
      obtain ⟨hsame, hlater⟩ := ih
      obtain ⟨hcontents, -, hin, line, hline⟩ := h
      rw [hsame] at hcontents hin hline
      refine ⟨hcontents, Nat.lt_trans hlater ?_⟩
      exact readLine_later hshort (Nat.le_of_lt hin) hline

/-- Among short files a circle goes through an include. -/
theorem circle_includes {at_ : Point} (hshort : at_.contents.length + 1 < 2 ^ 32)
    (h : Relation.TransGen (Leads lookup) at_ at_) :
    ∃ at_' callee next, Relation.ReflTransGen (Leads lookup) at_ at_' ∧
      pointStep lookup at_' = .call callee next ∧
      Relation.ReflTransGen (Leads lookup) callee at_ := by
  have hgo : ∀ b, Relation.TransGen (Leads lookup) at_ b → Relation.TransGen Follows at_ b ∨
      ∃ at_' callee next, Relation.ReflTransGen (Leads lookup) at_ at_' ∧
        pointStep lookup at_' = .call callee next ∧
        Relation.ReflTransGen (Leads lookup) callee b := by
    intro b hb
    induction hb with
    | single hlead =>
        cases hlead with
        | jump hstep => exact .inl (.single (pointStep_jump hstep))
        | enter hstep => exact .inr ⟨_, _, _, .refl, hstep, .refl⟩
        | past hstep _ => exact .inl (.single (pointStep_call hstep).2.2)
    | tail hab hlead ih =>
        rcases ih with hfollows | ⟨at_', callee, next, hreach, hstep, hback⟩
        · cases hlead with
          | jump hstep => exact .inl (hfollows.tail (pointStep_jump hstep))
          | enter hstep => exact .inr ⟨_, _, _, hab.to_reflTransGen, hstep, .refl⟩
          | past hstep _ => exact .inl (hfollows.tail (pointStep_call hstep).2.2)
        · exact .inr ⟨at_', callee, next, hreach, hstep, hback.tail hlead⟩
  rcases hgo at_ h with hfollows | hincludes
  · exact absurd (follows_later hshort hfollows).2 (Nat.lt_irrefl _)
  · exact hincludes

end Program

-- ============================================================================
-- Termination
-- ============================================================================

/-- Where a file is begun. -/
def start (contents path : Bytes) : Point := { contents := contents, path := path, pos := 0 }

/-- No position that is reached leads back to itself, none is in a file whose
    lines do not end within `2 ^ 32` characters, and no chain of includes is
    without an end, which takes names with a NUL in them. -/
def NoCircle (lookup : Bytes → Lookup) (contents path : Bytes) : Prop :=
  (∀ at_, Relation.ReflTransGen (Leads lookup) (start contents path) at_ →
    ¬ EndlessLine at_.contents ∧ ¬ Relation.TransGen (Leads lookup) at_ at_) ∧
  ¬ Calls.Wanders (pointStep lookup) swallows (start contents path)

/-- `parseConfigFiles` terminates exactly when no position that is reached leads
    back to itself. -/
theorem terminates_iff_noCircle (lookup : Bytes → Lookup) (contents path : Bytes) :
    Terminates lookup contents path ↔ NoCircle lookup contents path := by
  have hrun : Terminates lookup contents path ↔
      Calls.Terminates (pointStep lookup) swallows (start contents path) [] := by
    simp only [Terminates, Calls.Terminates, parseConfigFiles_eq_run]
    rfl
  rw [hrun, Calls.terminates_iff, NoCircle]
  simp only [ne_eq, pointStep_eq_stuck]

/-- A position that is reached is in the first file, or in one that was looked
    up. -/
theorem reached_file {lookup : Bytes → Lookup} {contents path : Bytes} {at_ : Point}
    (h : Relation.ReflTransGen (Leads lookup) (start contents path) at_) :
    (at_.contents = contents ∧ at_.path = path) ∨
      lookup (kernelPath at_.path) = .file at_.contents := by
  induction h with
  | refl => exact .inl ⟨rfl, rfl⟩
  | tail _ hlead ih =>
      cases hlead with
      | jump hstep =>
          obtain ⟨hcontents, hpath, -⟩ := pointStep_jump hstep
          rw [hcontents, hpath]
          exact ih
      | enter hstep => exact .inr (pointStep_call hstep).1
      | past hstep _ =>
          obtain ⟨hcontents, hpath, -⟩ := (pointStep_call hstep).2.2
          rw [hcontents, hpath]
          exact ih

/-- In a finite set of files, when no name that is reached has a NUL in it, only
    the circles are left. -/
theorem noCircle_iff_of_finite {lookup : Bytes → Lookup} {contents path : Bytes}
    (hfinite : {p | ∃ c, lookup p = .file c}.Finite)
    (hnul : ∀ at_, Relation.ReflTransGen (Leads lookup) (start contents path) at_ →
      0 ∉ at_.path) :
    NoCircle lookup contents path ↔
      ∀ at_, Relation.ReflTransGen (Leads lookup) (start contents path) at_ →
        ¬ EndlessLine at_.contents ∧ ¬ Relation.TransGen (Leads lookup) at_ at_ := by
  refine and_iff_left (Calls.not_wanders ?_)
  -- a position is determined by its number and by the name of its file
  have hpos : (Set.univ : Set UInt32).Finite := by
    refine Set.Finite.of_injOn (f := UInt32.toNat) ?_ ?_ (Set.finite_lt_nat (2 ^ 32))
    · exact fun pos _ => pos.toNat_lt
    · exact fun a _ b _ hab => UInt32.toNat_inj.mp hab
  have hfirst := hpos.image fun pos => { start contents path with pos := pos }
  have hlooked := (hfinite.prod hpos).image fun x => (⟨match lookup x.1 with
    | .file c => c
    | _ => [], x.1, x.2⟩ : Point)
  refine (hfirst.union hlooked).subset ?_
  intro at_ hat
  rcases reached_file hat with ⟨hcontents, hpath⟩ | hfile
  · left
    exact ⟨at_.pos, Set.mem_univ _, by rw [start, ← hcontents, ← hpath]⟩
  · right
    have hkernel : kernelPath at_.path = at_.path :=
      List.takeWhile_eq_self_iff.mpr fun c hc => by
        simpa using fun h : c = 0 => hnul at_ hat (h ▸ hc)
    rw [hkernel] at hfile
    refine ⟨(at_.path, at_.pos), ⟨⟨_, hfile⟩, Set.mem_univ _⟩, ?_⟩
    simp only [hfile]

namespace Sample

def contents : Bytes := ascii "include a"

/-- One file, `/a`, that includes itself. -/
def lookup (p : Bytes) : Lookup := if p = ascii "/a" then .file contents else .missing

theorem pointStep_start : pointStep lookup (start contents (ascii "/a")) =
    .call (start contents (ascii "/a")) { start contents (ascii "/a") with pos := 10 } := by
  have hline : nextLine contents 0 = some (ascii "include a", 10) :=
    nextLine_eq_some.mpr ⟨10, by decide⟩
  have hparse : parseLine (ascii "/a") (ascii "include a") = .include false (ascii "/a") := by
    decide
  have hlookup : lookup (kernelPath (ascii "/a")) = .file contents := by
    rw [lookup, if_pos (by decide)]
  have hstep := @pointStep_of_line lookup (start contents (ascii "/a")) _ _ (by decide) hline
  rw [hstep]
  show lineStep lookup (ascii "/a") _ (parseLine (ascii "/a") (ascii "include a")) = _
  rw [hparse, lineStep, hlookup]
  rfl

end Sample

/-- A file that includes itself is parsed for ever. -/
theorem not_terminates_self : ¬ Terminates Sample.lookup Sample.contents (ascii "/a") := by
  rintro ⟨fuel, r, hrun⟩
  rw [parseConfigFiles_eq_run] at hrun
  have hself : Leads Sample.lookup (start Sample.contents (ascii "/a"))
      (start Sample.contents (ascii "/a")) := Calls.Leads.enter Sample.pointStep_start
  exact Calls.no_circle (Calls.acc_of_run hrun) Relation.ReflTransGen.refl
    (Relation.TransGen.single hself)

end Configuration
end NixStore
