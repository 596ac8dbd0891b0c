/-
  NixStore.Util.NarCalls

  The calls with which `parseDump` (`libutil/archive.cc`) feeds a node to a
  sink, as a list.

  What a sink is told is known before the sink is: `feed` runs the list of
  calls of a node (`feed_eq_runCalls`).  Each call of such a list is in its
  place: names are new, their directory is there, and the calls for a regular
  file come one after another (`seqRun_feeds`).
-/

import NixStore.Lib.Inodes
import NixStore.Util.Restore

namespace NixStore

open SortedMap

-- ============================================================================
-- Calls
-- ============================================================================

/-- A call of a `FileSystemObjectSink` or its `CreateRegularFileSink`. -/
inductive Call where
  | createDirectory (path : NodePath)
  | createSymlink (path : NodePath) (target : Bytes)
  | createRegularFile (path : NodePath)
  | isExecutable (path : NodePath)
  | preallocateContents (path : NodePath) (size : Nat)
  | write (path : NodePath) (data : Bytes)
  | finishRegularFile (path : NodePath)

/-- The name that a call creates. -/
def Call.created : Call → Option NodePath
  | .createDirectory path => some path
  | .createSymlink path _ => some path
  | .createRegularFile path => some path
  | _ => none

section

variable {σ : Type} (sink : FileSystemObjectSink σ)

/-- Make a call. -/
def Call.run : Call → σ → Except Error σ
  | .createDirectory path, st => sink.createDirectory path st
  | .createSymlink path target, st => sink.createSymlink path target st
  | .createRegularFile path, st => sink.createRegularFile path st
  | .isExecutable path, st => sink.isExecutable path st
  | .preallocateContents path size, st => sink.preallocateContents path size st
  | .write path data, st => sink.write path data st
  | .finishRegularFile path, st => sink.finishRegularFile path st

/-- Make calls until one throws. -/
def runCalls : List Call → σ → Except Error σ
  | [], st => .ok st
  | c :: rest, st => c.run sink st >>= runCalls rest

theorem runCalls_append (l l' : List Call) (st : σ) :
    runCalls sink (l ++ l') st = runCalls sink l st >>= runCalls sink l' := by
  induction l generalizing st with
  | nil => rfl
  | cons c l ih =>
      rw [List.cons_append, runCalls, runCalls, except_bind_assoc]
      congr 1
      funext st'
      exact ih st'

theorem runCalls_singleton (c : Call) (st : σ) : runCalls sink [c] st = c.run sink st := by
  show c.run sink st >>= runCalls sink [] = _
  cases c.run sink st <;> rfl

end

namespace NarNode

/-- The pieces in which `drainInto` hands contents on. -/
def chunks : Nat → Bytes → List Bytes
  | 0, _ => []
  | _ + 1, [] => []
  | rounds + 1, b :: bs => (b :: bs).take 65536 :: chunks rounds ((b :: bs).drop 65536)

/-- The calls for a regular file. -/
def regularCalls (path : NodePath) (executable : Bool) (contents : Bytes) : List Call :=
  .createRegularFile path :: ((if executable then [.isExecutable path] else []) ++
    (.preallocateContents path contents.length ::
      ((chunks contents.length contents).map (.write path) ++ [.finishRegularFile path])))

mutual

/-- The calls for a node at `path`. -/
def calls : NodePath → NarNode → List Call
  | path, .regular executable contents _ => regularCalls path executable contents
  | path, .directory entries => .createDirectory path :: callsEntries path entries
  | path, .symlink target => [.createSymlink path target]

/-- The calls for the entries of the directory at `path`. -/
def callsEntries : NodePath → List (Bytes × NarNode) → List Call
  | _, [] => []
  | path, (name, x) :: rest => calls (path ++ [name]) x ++ callsEntries path rest

end

/-- The calls for a regular file whose contents come in these pieces. -/
def fileCalls (path : NodePath) (executable : Bool) (size : Nat) (pieces : List Bytes) : List Call :=
  .createRegularFile path :: ((if executable then [.isExecutable path] else []) ++
    (.preallocateContents path size ::
      (pieces.map (.write path) ++ [.finishRegularFile path])))

mutual

/-- Calls for a node at `path`, however its contents are cut: `drainInto` hands
    on what `Source::read` returns. -/
def Feeds : NodePath → NarNode → List Call → Prop
  | path, .regular executable contents _, l => ∃ pieces : List Bytes,
      pieces.flatten = contents ∧ l = fileCalls path executable contents.length pieces
  | path, .directory entries, l => ∃ l', FeedsEntries path entries l' ∧
      l = .createDirectory path :: l'
  | path, .symlink target, l => l = [.createSymlink path target]

/-- `Feeds` for the entries of the directory at `path`. -/
def FeedsEntries : NodePath → List (Bytes × NarNode) → List Call → Prop
  | _, [], l => l = []
  | path, (name, x) :: rest, l => ∃ l₁ l₂, Feeds (path ++ [name]) x l₁ ∧
      FeedsEntries path rest l₂ ∧ l = l₁ ++ l₂

end

theorem flatten_chunks {rounds : Nat} {c : Bytes} (h : c.length ≤ rounds) :
    (chunks rounds c).flatten = c := by
  induction rounds generalizing c with
  | zero =>
      rw [List.length_eq_zero_iff.mp (Nat.le_zero.mp h)]
      rfl
  | succ rounds ih =>
      cases c with
      | nil => rfl
      | cons b bs =>
          have hrest : ((b :: bs).drop 65536).length ≤ rounds := by
            rw [List.length_drop]
            simp only [List.length_cons] at h ⊢
            omega
          rw [chunks, List.flatten_cons, ih hrest, List.take_append_drop]

section

variable {σ : Type} {sink : FileSystemObjectSink σ}

theorem drainInto_eq_runCalls (path : NodePath) {rounds : Nat} {c : Bytes} (st : σ)
    (h : c.length ≤ rounds) :
    (drainInto (sink.write path) rounds c.length c st).map (·.2)
      = runCalls sink ((chunks rounds c).map (.write path)) st := by
  induction rounds generalizing c st with
  | zero =>
      rw [List.length_eq_zero_iff.mp (Nat.le_zero.mp h)]
      rfl
  | succ rounds ih =>
      cases c with
      | nil => rfl
      | cons b bs =>
          have hn : min (min (bs.length + 1) 65536) (b :: bs).length = min (bs.length + 1) 65536 := by
            rw [List.length_cons]
            omega
          have hcut : min (bs.length + 1) 65536 = 65536 ∨
              min (bs.length + 1) 65536 = (b :: bs).length ∧ (b :: bs).length ≤ 65536 := by
            rw [List.length_cons]
            omega
          have htake : (b :: bs).take (min (bs.length + 1) 65536) = (b :: bs).take 65536 := by
            rcases hcut with h | ⟨h, hshort⟩
            · rw [h]
            · rw [h, List.take_length, List.take_of_length_le hshort]
          have hdrop : (b :: bs).drop (min (bs.length + 1) 65536) = (b :: bs).drop 65536 := by
            rcases hcut with h | ⟨h, hshort⟩
            · rw [h]
            · rw [h, List.drop_length, List.drop_of_length_le hshort]
          have hlen : bs.length + 1 - min (bs.length + 1) 65536
              = ((b :: bs).drop 65536).length := by
            rw [List.length_drop, List.length_cons]
            omega
          have hrest : ((b :: bs).drop 65536).length ≤ rounds := by
            simp only [List.length_drop, List.length_cons] at h ⊢
            omega
          simp only [List.length_cons, drainInto, throwIf, reduceCtorEq, if_false, ok_bind]
          rw [List.length_cons] at hn
          rw [hn, htake, hdrop, hlen, chunks, List.map_cons, runCalls]
          show ((sink.write path _ st) >>= _).map _ = sink.write path _ st >>= _
          cases sink.write path ((b :: bs).take 65536) st with
          | error e => rfl
          | ok st' => exact ih st' hrest

mutual

/-- What a sink is told about a node is the list of its calls. -/
theorem feed_eq_runCalls (hskip : sink.skipContents = false) :
    ∀ (path : NodePath) (x : NarNode) (st : σ),
      feed sink plain path x st = runCalls sink (calls path x) st
  | path, .regular executable contents pad, st => by
      have hbody : ∀ st, feedBody sink path contents st
          = runCalls sink (.preallocateContents path contents.length ::
              (chunks contents.length contents).map (.write path)) st := by
        intro st
        rw [feedBody, runCalls]
        show sink.preallocateContents path contents.length st >>= _ = _
        congr 1
        funext st'
        rw [hskip, if_neg Bool.false_ne_true, feedContents, drainInto_eq_runCalls path st' le_rfl]
      rw [feed, calls, regularCalls, runCalls]
      show sink.createRegularFile path st >>= _ = _
      congr 1
      funext st₁
      rw [runCalls_append]
      have hmark : runCalls sink (if executable then [.isExecutable path] else []) st₁
          = feedExecutable sink path executable st₁ := by
        unfold feedExecutable
        cases executable
        · rfl
        · exact runCalls_singleton sink _ st₁
      rw [hmark]
      congr 1
      funext st₂
      rw [hbody, ← List.cons_append, runCalls_append]
      congr 1
      funext st₃
      exact (runCalls_singleton sink (.finishRegularFile path) st₃).symm
  | path, .directory entries, st => by
      rw [feed, calls, runCalls]
      show sink.createDirectory path st >>= _ = _
      congr 1
      funext st'
      exact feedEntries_eq_runCalls hskip path entries [] st'
  | path, .symlink target, st => by
      rw [feed, calls, runCalls_singleton]
      rfl

theorem feedEntries_eq_runCalls (hskip : sink.skipContents = false) :
    ∀ (path : NodePath) (es : List (Bytes × NarNode)) (names : List (Bytes × Nat)) (st : σ),
      feedEntries sink plain path names es st = runCalls sink (callsEntries path es) st
  | _, [], _, _ => rfl
  | path, (name, x) :: rest, names, st => by
      rw [feedEntries, entryName_plain, ok_bind, callsEntries, runCalls_append]
      show feed sink plain (path ++ [name]) x st >>= _ = _
      rw [feed_eq_runCalls hskip (path ++ [name]) x st]
      congr 1
      funext st'
      exact feedEntries_eq_runCalls hskip path rest names st'

end

end

end NarNode

-- ============================================================================
-- What the calls build
-- ============================================================================

/-- What an inode holds. -/
inductive Object where
  | regular (executable : Bool) (contents : Bytes)
  | symlink (target : Bytes)
deriving DecidableEq

/-- A tree, name by name. -/
abbrev View := NodePath → Option (Node Object)

/-- What a reader sees of a node. -/
def File.node : File → Node Object
  | .regular executable contents => .object (.regular executable contents)
  | .directory _ => .directory
  | .symlink target => .object (.symlink target)

/-- The names of a tree. -/
def File.view (f : File) : View := fun q => (f.at? q).map File.node

/-- What is below a path is below a directory. -/
theorem File.view_parent {f : File} {path r : NodePath} {name : Bytes}
    (h : (f.view (path ++ name :: r)).isSome) :
    f.view path = some .directory ∧ (f.view (path ++ [name])).isSome := by
  unfold File.view at h ⊢
  rw [Option.isSome_map, File.at?_append] at h
  rw [Option.isSome_map, File.at?_append]
  cases hpath : f.at? path with
  | none =>
      rw [hpath] at h
      cases h
  | some g =>
      rw [hpath] at h
      cases g with
      | regular _ _ => cases h
      | symlink _ => cases h
      | directory entries =>
          refine ⟨rfl, ?_⟩
          show ((find? name entries).bind (File.at? [])).isSome
          cases hfind : find? name entries with
          | none =>
              change ((find? name entries).bind (File.at? r)).isSome at h
              rw [hfind] at h
              cases h
          | some g => rfl

/-- A view with one name set. -/
def View.set (v : View) (path : NodePath) (n : Node Object) : View :=
  fun q => if q = path then some n else v q

/-- A regular file that is being written; `size` is known once the contents
    begin. -/
structure Current where
  path : NodePath
  size : Option Nat

/-- What has been built, and the file that is open. -/
structure Built where
  view : View
  current : Option Current

/-- The name is new and its directory is there. -/
def View.Room (v : View) (path : NodePath) : Prop :=
  v path = none ∧ (path = [] ∨ v path.dropLast = some .directory)

/-- A call in its place.  `files` are the files that may be finished. -/
inductive SeqStep (files : Bool → Bytes → Prop) : Built → Call → Built → Prop where
  | directory {v : View} {path : NodePath} : v.Room path →
      SeqStep files ⟨v, none⟩ (.createDirectory path) ⟨v.set path .directory, none⟩
  | symlink {v : View} {path : NodePath} {target : Bytes} : v.Room path →
      SeqStep files ⟨v, none⟩ (.createSymlink path target)
        ⟨v.set path (.object (.symlink target)), none⟩
  | regular {v : View} {path : NodePath} : v.Room path →
      SeqStep files ⟨v, none⟩ (.createRegularFile path)
        ⟨v.set path (.object (.regular false [])), some ⟨path, none⟩⟩
  | executable {v : View} {path : NodePath} : v path = some (.object (.regular false [])) →
      SeqStep files ⟨v, some ⟨path, none⟩⟩ (.isExecutable path)
        ⟨v.set path (.object (.regular true [])), some ⟨path, none⟩⟩
  | size {v : View} {path : NodePath} {executable : Bool} {n : Nat} :
      v path = some (.object (.regular executable [])) →
      SeqStep files ⟨v, some ⟨path, none⟩⟩ (.preallocateContents path n) ⟨v, some ⟨path, some n⟩⟩
  | data {v : View} {path : NodePath} {executable : Bool} {contents data : Bytes} {n : Nat} :
      v path = some (.object (.regular executable contents)) →
      SeqStep files ⟨v, some ⟨path, some n⟩⟩ (.write path data)
        ⟨v.set path (.object (.regular executable (contents ++ data))), some ⟨path, some n⟩⟩
  | finish {v : View} {path : NodePath} {executable : Bool} {contents : Bytes} :
      v path = some (.object (.regular executable contents)) → files executable contents →
      SeqStep files ⟨v, some ⟨path, some contents.length⟩⟩ (.finishRegularFile path) ⟨v, none⟩

/-- Calls in their places, one after another. -/
inductive SeqRun (files : Bool → Bytes → Prop) : Built → List Call → Built → Prop where
  | nil (b : Built) : SeqRun files b [] b
  | cons {b b₁ b' : Built} {c : Call} {rest : List Call} : SeqStep files b c b₁ →
      SeqRun files b₁ rest b' → SeqRun files b (c :: rest) b'

theorem SeqRun.append {files : Bool → Bytes → Prop} {b b₁ b' : Built} {l l' : List Call}
    (h : SeqRun files b l b₁) (h' : SeqRun files b₁ l' b') : SeqRun files b (l ++ l') b' := by
  induction h with
  | nil _ => exact h'
  | cons hstep _ ih => exact SeqRun.cons hstep (ih h')

theorem SeqRun.single {files : Bool → Bytes → Prop} {b b' : Built} {c : Call}
    (h : SeqStep files b c b') : SeqRun files b [c] b' := SeqRun.cons h (SeqRun.nil _)

theorem View.set_set (v : View) (path : NodePath) (m n : Node Object) :
    (v.set path m).set path n = v.set path n := by
  funext q
  unfold View.set
  split <;> rfl

@[simp] theorem View.set_self (v : View) (path : NodePath) (n : Node Object) :
    v.set path n path = some n := if_pos rfl

theorem View.set_of_ne (v : View) {path q : NodePath} (n : Node Object) (h : q ≠ path) :
    v.set path n q = v q := if_neg h

/-- What has been built stays, and regular files stay regular files. -/
theorem SeqRun.grows {files : Bool → Bytes → Prop} {b b' : Built} {l : List Call}
    (h : SeqRun files b l b') (k : NodePath) :
    ((b.view k).isSome → (b'.view k).isSome) ∧
      ((∃ e c, b.view k = some (.object (.regular e c))) →
        ∃ e c, b'.view k = some (.object (.regular e c))) := by
  induction h with
  | nil b => exact ⟨id, id⟩
  | cons hstep _ ih =>
      refine ⟨fun h => ih.1 ?_, fun h => ih.2 ?_⟩
      · cases hstep with
        | size _ => exact h
        | finish _ _ => exact h
        | _ =>
            simp only [View.set]
            split
            · rfl
            · exact h
      · obtain ⟨e, c, hk⟩ := h
        have hkeep : ∀ {v : View} {path : NodePath} {n : Node Object}, v path = none →
            v k = some (.object (.regular e c)) →
            ∃ e c, v.set path n k = some (.object (.regular e c)) := by
          intro v path n hnone hk
          refine ⟨e, c, ?_⟩
          rw [View.set_of_ne v n, hk]
          rintro rfl
          rw [hnone] at hk
          cases hk
        have hrewrite : ∀ {v : View} {path : NodePath} (e' : Bool) (c' : Bytes),
            v k = some (.object (.regular e c)) →
            ∃ e c, v.set path (.object (.regular e' c')) k = some (.object (.regular e c)) := by
          intro v path e' c' hk
          by_cases hpath : k = path
          · rw [hpath, View.set_self]
            exact ⟨e', c', rfl⟩
          · rw [View.set_of_ne v _ hpath]
            exact ⟨e, c, hk⟩
        cases hstep with
        | directory hroom => exact hkeep hroom.1 hk
        | symlink hroom => exact hkeep hroom.1 hk
        | regular hroom => exact hkeep hroom.1 hk
        | executable _ => exact hrewrite _ _ hk
        | size _ => exact ⟨e, c, hk⟩
        | data _ => exact hrewrite _ _ hk
        | finish _ _ => exact ⟨e, c, hk⟩

theorem SeqStep.shows_created {files : Bool → Bytes → Prop} {b b' : Built} {c : Call}
    (h : SeqStep files b c b') {path : NodePath} (hcreated : c.created = some path) :
    b.current = none ∧ (b'.view path).isSome := by
  cases h with
  | directory _ | symlink _ | regular _ =>
      cases hcreated
      exact ⟨rfl, congrArg Option.isSome (View.set_self _ _ _)⟩
  | executable _ | size _ | data _ | finish _ _ => cases hcreated

/-- Nothing is at a path or below it. -/
def View.Empty (v : View) (path : NodePath) : Prop := ∀ r, v (path ++ r) = none

/-- A view with a tree at a path. -/
def View.graft (v : View) (path : NodePath) (f : File) : View :=
  fun q => if path <+: q then f.view (q.drop path.length) else v q

theorem View.graft_below (v : View) (path : NodePath) (f : File) (r : NodePath) :
    v.graft path f (path ++ r) = f.view r := by
  rw [View.graft, if_pos (List.prefix_append path r), List.drop_left]

theorem View.graft_beside (v : View) {path q : NodePath} (f : File) (h : ¬ path <+: q) :
    v.graft path f q = v q := if_neg h

/-- A node without entries has nothing below it. -/
theorem View.graft_leaf {v : View} {path : NodePath} (h : v.Empty path) {f : File}
    (hleaf : ∀ name r, f.at? (name :: r) = none) : v.graft path f = v.set path f.node := by
  funext q
  by_cases hq : path <+: q
  · obtain ⟨r, rfl⟩ := hq
    rw [View.graft_below]
    cases r with
    | nil =>
        rw [List.append_nil, View.set_self]
        rfl
    | cons name r =>
        have hne : path ++ name :: r ≠ path := by
          intro heq
          have := congrArg List.length heq
          rw [List.length_append, List.length_cons] at this
          omega
        rw [View.set_of_ne v _ hne, h]
        show (f.at? (name :: r)).map File.node = none
        rw [hleaf]
        rfl
  · have hne : q ≠ path := fun heq => hq (heq ▸ List.prefix_rfl)
    rw [View.graft_beside v f hq, View.set_of_ne v _ hne]

namespace NarNode

mutual

/-- The regular files of a node. -/
def files : NarNode → List (Bool × Bytes)
  | .regular executable contents _ => [(executable, contents)]
  | .directory entries => filesEntries entries
  | .symlink _ => []

/-- `files` for the entries of a directory. -/
def filesEntries : List (Bytes × NarNode) → List (Bool × Bytes)
  | [] => []
  | (_, x) :: rest => files x ++ filesEntries rest

end

/-- A view with the trees of these entries under their names. -/
def graftEntries (path : NodePath) : List (Bytes × NarNode) → View → View
  | [], v => v
  | (name, x) :: rest, v => graftEntries path rest (v.graft (path ++ [name]) x.toFile)

/-- Names that are not below an entry stay as they were. -/
theorem graftEntries_beside {path q : NodePath} {es : List (Bytes × NarNode)} (v : View)
    (h : ∀ e ∈ es, ¬ path ++ [e.1] <+: q) : graftEntries path es v q = v q := by
  induction es generalizing v with
  | nil => rfl
  | cons e es ih =>
      rw [graftEntries, ih _ fun e' he' => h e' (List.mem_cons_of_mem _ he'),
        View.graft_beside _ _ (h e List.mem_cons_self)]

theorem prefix_entry {path r : NodePath} {a b : Bytes} (h : path ++ [a] <+: path ++ b :: r) :
    a = b := by
  obtain ⟨rest, hrest⟩ := h
  rw [List.append_assoc, List.append_cancel_left_eq, List.singleton_append] at hrest
  exact (List.cons.inj hrest).1

/-- What is at and below an entry. -/
theorem graftEntries_below {path r : NodePath} {name : Bytes} {es : List (Bytes × NarNode)}
    (v : View) (hnames : (es.map Prod.fst).Nodup) :
    graftEntries path es v (path ++ name :: r)
      = match find? name (toFileEntries es) with
        | some f => f.view r
        | none => v (path ++ name :: r) := by
  induction es generalizing v with
  | nil => rfl
  | cons e es ih =>
      obtain ⟨m, x⟩ := e
      obtain ⟨hnew, hrest⟩ := List.nodup_cons.mp hnames
      rw [graftEntries, toFileEntries, find?]
      by_cases hm : m = name
      · subst hm
        have hbeside : ∀ e ∈ es, ¬ path ++ [e.1] <+: path ++ m :: r := by
          intro e he hpre
          apply hnew
          show m ∈ es.map Prod.fst
          rw [← prefix_entry hpre]
          exact List.mem_map_of_mem he
        have hsplit : path ++ m :: r = (path ++ [m]) ++ r := by
          rw [List.append_assoc, List.singleton_append]
        rw [if_pos rfl, graftEntries_beside _ hbeside, hsplit, View.graft_below]
      · rw [if_neg hm, ih _ hrest]
        split
        · rfl
        · exact View.graft_beside v _ fun hpre => hm (prefix_entry hpre)

/-- A directory with its entries. -/
theorem graft_directory {v : View} {path : NodePath} (h : v.Empty path)
    {es : List (Bytes × NarNode)} (hnames : (es.map Prod.fst).Nodup) :
    graftEntries path es (v.set path .directory) = v.graft path (.directory (toFileEntries es)) := by
  have hne : ∀ name r, path ++ name :: r ≠ path := by
    intro name r heq
    have := congrArg List.length heq
    rw [List.length_append, List.length_cons] at this
    omega
  funext q
  by_cases hq : path <+: q
  · obtain ⟨r, rfl⟩ := hq
    rw [View.graft_below]
    cases r with
    | nil =>
        rw [List.append_nil, graftEntries_beside, View.set_self]
        · rfl
        · rintro e - hpre
          have := hpre.length_le
          rw [List.length_append, List.length_singleton] at this
          omega
    | cons name r =>
        rw [graftEntries_below _ hnames, View.set_of_ne v _ (hne name r), h]
        show _ = (File.at? (name :: r) (.directory (toFileEntries es))).map File.node
        rw [File.at?]
        cases find? name (toFileEntries es) <;> rfl
  · rw [View.graft_beside v _ hq, graftEntries_beside, View.set_of_ne]
    · rintro rfl
      exact hq List.prefix_rfl
    · rintro e - hpre
      exact hq ((List.prefix_append path [e.1]).trans hpre)

mutual

/-- Pieces of `drainInto`'s size are one way of cutting the contents. -/
theorem feeds_calls : ∀ (path : NodePath) (x : NarNode), Feeds path x (calls path x)
  | _, .regular _ _ _ => ⟨_, flatten_chunks le_rfl, rfl⟩
  | path, .directory entries => ⟨_, feedsEntries_calls path entries, rfl⟩
  | _, .symlink _ => rfl

theorem feedsEntries_calls : ∀ (path : NodePath) (es : List (Bytes × NarNode)),
    FeedsEntries path es (callsEntries path es)
  | _, [] => rfl
  | path, (name, x) :: rest =>
      ⟨_, _, feeds_calls (path ++ [name]) x, feedsEntries_calls path rest, rfl⟩

end

/-- The calls for a regular file write it. -/
theorem seqRun_regular {P : Bool → Bytes → Prop} {v : View} {path : NodePath} (hroom : v.Room path)
    {executable : Bool} {contents : Bytes} {pieces : List Bytes} (hflat : pieces.flatten = contents)
    (hfile : P executable contents) :
    SeqRun P ⟨v, none⟩ (fileCalls path executable contents.length pieces)
      ⟨v.set path (.object (.regular executable contents)), none⟩ := by
  refine SeqRun.cons (SeqStep.regular hroom) ?_
  have hmark : SeqRun P ⟨v.set path (.object (.regular false [])), some ⟨path, none⟩⟩
      (if executable then [.isExecutable path] else [])
      ⟨v.set path (.object (.regular executable [])), some ⟨path, none⟩⟩ := by
    cases executable with
    | false => exact SeqRun.nil _
    | true =>
        refine SeqRun.single ?_
        have hstep : SeqStep P ⟨v.set path (.object (.regular false [])), some ⟨path, none⟩⟩
            (.isExecutable path) _ := SeqStep.executable (View.set_self _ _ _)
        rwa [View.set_set] at hstep
  have hwrites : ∀ (pieces : List Bytes) (done : Bytes),
      SeqRun P
        ⟨v.set path (.object (.regular executable done)), some ⟨path, some contents.length⟩⟩
        (pieces.map (.write path))
        ⟨v.set path (.object (.regular executable (done ++ pieces.flatten))),
          some ⟨path, some contents.length⟩⟩ := by
    intro pieces
    induction pieces with
    | nil =>
        intro done
        rw [List.flatten_nil, List.append_nil]
        exact SeqRun.nil _
    | cons d pieces ih =>
        intro done
        refine SeqRun.cons (SeqStep.data (View.set_self _ _ _)) ?_
        rw [View.set_set, List.flatten_cons, ← List.append_assoc]
        exact ih (done ++ d)
  refine hmark.append (SeqRun.cons (SeqStep.size (View.set_self _ _ _)) ?_)
  refine (hwrites _ []).append (SeqRun.single ?_)
  rw [List.nil_append, hflat]
  exact SeqStep.finish (View.set_self _ _ _) hfile

theorem LegalEntries.lt {levels : Nat} : ∀ {prev : Bytes} {es : List (Bytes × NarNode)},
    LegalEntries levels prev es → ∀ e ∈ es, prev < e.1
  | _, [], _, e, he => absurd he List.not_mem_nil
  | prev, (name, x) :: rest, h, e, he => by
      obtain ⟨-, -, hlt, -, hrest⟩ := h
      rcases List.mem_cons.mp he with rfl | he
      · exact hlt
      · exact Std.lt_trans hlt (hrest.lt e he)

theorem LegalEntries.nodup {levels : Nat} : ∀ {prev : Bytes} {es : List (Bytes × NarNode)},
    LegalEntries levels prev es → (es.map Prod.fst).Nodup
  | _, [], _ => List.nodup_nil
  | prev, (name, x) :: rest, h => by
      obtain ⟨-, -, -, -, hrest⟩ := h
      refine List.nodup_cons.mpr ⟨fun hmem => ?_, hrest.nodup⟩
      obtain ⟨e, he, heq⟩ := List.mem_map.mp hmem
      have hlt := hrest.lt e he
      rw [heq] at hlt
      exact Std.lt_irrefl hlt

mutual

/-- The calls for a legal node are in their places, and build its tree. -/
theorem seqRun_feeds {P : Bool → Bytes → Prop} :
    ∀ {levels : Nat} {x : NarNode} {v : View} {path : NodePath} {l : List Call}, x.Legal levels →
      (∀ f ∈ x.files, P f.1 f.2) → v.Empty path →
      (path = [] ∨ v path.dropLast = some .directory) → Feeds path x l →
      SeqRun P ⟨v, none⟩ l ⟨v.graft path x.toFile, none⟩
  | _, .regular executable contents pad, v, path, _, _, hfiles, hempty, hdir, hfeeds => by
      have hnone : v path = none := by
        have := hempty []
        rwa [List.append_nil] at this
      have hleaf : ∀ name r, File.at? (name :: r) (.regular executable contents) = none :=
        fun _ _ => rfl
      obtain ⟨pieces, hflat, rfl⟩ := hfeeds
      rw [toFile, View.graft_leaf hempty hleaf]
      exact seqRun_regular ⟨hnone, hdir⟩ hflat (hfiles _ List.mem_cons_self)
  | _, .symlink target, v, path, _, _, _, hempty, hdir, hfeeds => by
      have hnone : v path = none := by
        have := hempty []
        rwa [List.append_nil] at this
      have hleaf : ∀ name r, File.at? (name :: r) (.symlink target) = none := fun _ _ => rfl
      rw [hfeeds, toFile, View.graft_leaf hempty hleaf]
      exact SeqRun.single (SeqStep.symlink ⟨hnone, hdir⟩)
  | levels, .directory entries, v, path, _, hlegal, hfiles, hempty, hdir, hfeeds => by
      have hnone : v path = none := by
        have := hempty []
        rwa [List.append_nil] at this
      obtain ⟨l', hentries, rfl⟩ := hfeeds
      rw [toFile, ← graft_directory hempty hlegal.2.nodup]
      refine SeqRun.cons (SeqStep.directory ⟨hnone, hdir⟩) ?_
      refine seqRun_feedsEntries hlegal.2 hfiles (View.set_self _ _ _) (fun e _ r => ?_) hentries
      rw [View.set_of_ne]
      · exact hempty _
      · intro heq
        have := congrArg List.length heq
        rw [List.length_append, List.length_cons] at this
        omega

theorem seqRun_feedsEntries {P : Bool → Bytes → Prop} :
    ∀ {levels : Nat} {prev : Bytes} {es : List (Bytes × NarNode)} {v : View} {path : NodePath}
      {l : List Call}, LegalEntries levels prev es → (∀ f ∈ filesEntries es, P f.1 f.2) →
      v path = some .directory → (∀ e ∈ es, ∀ r, v (path ++ e.1 :: r) = none) →
      FeedsEntries path es l → SeqRun P ⟨v, none⟩ l ⟨graftEntries path es v, none⟩
  | _, _, [], _, _, _, _, _, _, _, hfeeds => by
      rw [show _ = [] from hfeeds]
      exact SeqRun.nil _
  | levels, prev, (name, x) :: rest, v, path, _, hlegal, hfiles, hdir, hempty, hfeeds => by
      obtain ⟨-, -, -, hx, hrest⟩ := hlegal
      obtain ⟨l₁, l₂, hfeeds₁, hfeeds₂, rfl⟩ := hfeeds
      have hbelow : v.Empty (path ++ [name]) := by
        intro r
        rw [List.append_assoc, List.singleton_append]
        exact hempty _ List.mem_cons_self r
      have hfirst := seqRun_feeds hx (fun f hf => hfiles f (List.mem_append_left _ hf)) hbelow
        (Or.inr (by rw [List.dropLast_concat]; exact hdir)) hfeeds₁
      refine hfirst.append (seqRun_feedsEntries hrest
        (fun f hf => hfiles f (List.mem_append_right _ hf)) ?_ ?_ hfeeds₂)
      · rw [View.graft_beside]
        · exact hdir
        · intro hpre
          have := hpre.length_le
          rw [List.length_append, List.length_singleton] at this
          omega
      · intro e he r
        rw [View.graft_beside]
        · exact hempty e (List.mem_cons_of_mem _ he) r
        · intro hpre
          have hlt := hrest.lt e he
          rw [prefix_entry hpre] at hlt
          exact Std.lt_irrefl hlt

end

/-- A sink that reads contents is told about the trees within the limits, and
    what it is told is the list of their calls. -/
theorem parseDump_eq_runCalls {σ : Type} {sink : FileSystemObjectSink σ}
    (hskip : sink.skipContents = false) {source rest : Bytes} {st st' : σ} :
    parseDump plain sink source st = .ok (rest, st') ↔
      ∃ f : File, f.WithinLimits narMaxDepth ∧
        source = writeString narVersionMagic1 ++ (f.toNar.encode ++ rest) ∧
        runCalls sink (calls [] f.toNar) st = .ok st' := by
  have hbodies : ∀ x : NarNode, x.AllFiles (BodyOk sink.skipContents) ↔ x.PadsZero := by
    rw [hskip]
    exact fun _ => Iff.rfl
  rw [parseDump_eq_ok]
  constructor
  · rintro ⟨x, hlegal, rfl, hbody, hfeed⟩
    have hx := toNar_toFile ((hbodies x).mp hbody)
    refine ⟨x.toFile, legal_toNar.mp (by rw [hx]; exact hlegal), by rw [hx], ?_⟩
    rw [hx, ← feed_eq_runCalls hskip]
    exact hfeed
  · rintro ⟨f, hlim, rfl, hrun⟩
    refine ⟨f.toNar, legal_toNar.mpr hlim, rfl, (hbodies _).mpr (padsZero_toNar f), ?_⟩
    rw [feed_eq_runCalls hskip]
    exact hrun

mutual

/-- The files of a node are files of its tree. -/
theorem view_of_mem_files : ∀ {levels : Nat} {x : NarNode}, x.Legal levels →
    ∀ {a : Bool × Bytes}, a ∈ x.files → ∃ q, x.toFile.view q = some (.object (.regular a.1 a.2))
  | _, .regular executable contents pad, _, a, ha => by
      cases List.mem_singleton.mp ha
      exact ⟨[], rfl⟩
  | _, .symlink target, _, a, ha => absurd ha List.not_mem_nil
  | levels, .directory entries, hlegal, a, ha => by
      obtain ⟨name, f, q, -, hfind, hview⟩ := view_of_mem_filesEntries hlegal.2 ha
      refine ⟨name :: q, ?_⟩
      show (File.at? (name :: q) (.directory (toFileEntries entries))).map File.node = _
      rw [File.at?, hfind]
      exact hview

theorem view_of_mem_filesEntries : ∀ {levels : Nat} {prev : Bytes} {es : List (Bytes × NarNode)},
    LegalEntries levels prev es → ∀ {a : Bool × Bytes}, a ∈ filesEntries es →
    ∃ name f q, prev < name ∧ find? name (toFileEntries es) = some f ∧
      File.view f q = some (.object (.regular a.1 a.2))
  | _, _, [], _, a, ha => absurd ha List.not_mem_nil
  | levels, prev, (name, x) :: rest, hlegal, a, ha => by
      obtain ⟨-, -, hlt, hx, hrest⟩ := hlegal
      rcases List.mem_append.mp ha with ha | ha
      · obtain ⟨q, hq⟩ := view_of_mem_files hx ha
        exact ⟨name, x.toFile, q, hlt, if_pos rfl, hq⟩
      · obtain ⟨name', f, q, hlt', hfind, hq⟩ := view_of_mem_filesEntries hrest ha
        refine ⟨name', f, q, Std.lt_trans hlt hlt', ?_, hq⟩
        have hne : name ≠ name' := by
          rintro rfl
          exact Std.lt_irrefl hlt'
        rw [toFileEntries, find?, if_neg hne]
        exact hfind

end

end NarNode

end NixStore
