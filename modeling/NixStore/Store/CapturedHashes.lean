/-
  NixStore.Store.CapturedHashes

  The hashes that an import captures while it restores are those that
  `optimisePath_` would compute, under the strings that it looks up
  (`close_captured`).

  What the hasher will have recorded once it has caught up (`ledger`) is
  changed by no step of the worker, and an event that is pushed changes it as
  a hasher without a queue would.  So the worker's lag and the bound of the
  queue drop out, and what remains is a fold over the calls of the parser.
-/

import NixStore.Store.OptimiseStore
import NixStore.Util.CanonPath

namespace NixStore

-- ============================================================================
-- The keys
-- ============================================================================

/-- Where a sink of `parse` is: the `prefix` of the `FileHashingSink`, and the
    path that the sink is called with. -/
structure SinkPath where
  base : CanonPath
  path : CanonPath

/-- The entry of a directory.  `RestoreSink::createDirectory` hands back a
    sink at the directory, with the path of its root. -/
def SinkPath.entry (s : SinkPath) (name : Bytes) : Except Error SinkPath := do
  let relDirPath := CanonPath.root
  let base := if relDirPath.isRoot then s.base.extend s.path else s.base
  let path ← relDirPath.push name
  pure { base, path }

/-- Where the sink of a node is. -/
def sinkPath (q : NodePath) : Except Error SinkPath :=
  q.foldlM SinkPath.entry ⟨CanonPath.root, CanonPath.root⟩

/-- The key of a file: `(prefix / path).abs()`. -/
def fileBeginKey (q : NodePath) : Except Error Bytes := do
  let s ← sinkPath q
  pure (s.base.extend s.path).abs

/-- `std::filesystem::path::operator/` with a name. -/
def nativeAppend (path name : Bytes) : Bytes :=
  if path.getLast? = some 0x2f then path ++ name else path ++ 0x2f :: name

/-- The path that `optimisePath_` has come to at a node below `realPath`. -/
def nativePath (realPath : Bytes) (q : NodePath) : Bytes := q.foldl nativeAppend realPath

/-- The string that `optimisePath_` looks up there. -/
def lookupKey (realPath : Bytes) (q : NodePath) : Bytes :=
  let fileHashesBase := realPath.length
  let rel := (nativePath realPath q).drop fileHashesBase
  if rel = [] then ascii "/" else rel

theorem sinkPath_snoc (q : NodePath) (name : Bytes) :
    sinkPath (q ++ [name]) = sinkPath q >>= fun s => s.entry name := by
  rw [sinkPath, List.foldlM_append]
  show (sinkPath q >>= fun s => [name].foldlM SinkPath.entry s) = _
  congr 1
  funext s
  rw [List.foldlM_cons]
  cases s.entry name <;> rfl

theorem normal_of_not_invalid {name : Bytes} (h : ¬ invalidName name) :
    NormalComponent name ∧ 0 ∉ name := by
  rw [invalidName, not_or, not_or, not_or, not_or] at h
  obtain ⟨hne, hdot, hdotdot, hslash, hnul⟩ := h
  exact ⟨⟨hne, hdot, hdotdot, hslash⟩, hnul⟩

/-- The sub-sinks of a nest of directories spell the path from the root. -/
theorem sinkPath_spells {q : NodePath} (hq : ∀ name ∈ q, ¬ invalidName name) :
    ∃ s, sinkPath q = .ok s ∧ s.base.extend s.path = CanonPath.ofComponents q := by
  induction q using List.reverseRecOn with
  | nil => exact ⟨_, rfl, rfl⟩
  | append_singleton q name ih =>
      obtain ⟨s, hs, hspells⟩ := ih fun name' h => hq name' (List.mem_append_left _ h)
      obtain ⟨hname, hnul⟩ :=
        normal_of_not_invalid (hq name (List.mem_append_right _ (List.mem_singleton_self _)))
      have hpush : CanonPath.root.push name = .ok (CanonPath.ofComponents [name]) :=
        CanonPath.push_ofComponents (q := []) nofun hname hnul
      have hne : ∀ c ∈ q, c ≠ [] := fun c hc =>
        (normal_of_not_invalid (hq c (List.mem_append_left _ hc))).1.1
      refine ⟨⟨s.base.extend s.path, CanonPath.ofComponents [name]⟩, ?_, ?_⟩
      · rw [sinkPath_snoc, hs, ok_bind, SinkPath.entry, hpush]
        rfl
      · rw [hspells]
        refine CanonPath.extend_ofComponents hne fun c hc => ?_
        rw [List.mem_singleton.mp hc]
        exact hname.1

/-- The key of a file is the text of its path. -/
theorem fileBeginKey_eq {q : NodePath} (hq : ∀ name ∈ q, ¬ invalidName name) :
    fileBeginKey q = .ok (renderPath q) := by
  obtain ⟨s, hs, hspells⟩ := sinkPath_spells hq
  rw [fileBeginKey, hs, ok_bind, hspells]
  rfl

theorem nativeAppend_of_last {path name : Bytes} (h : path.getLast? ≠ some 0x2f) :
    nativeAppend path name = path ++ 0x2f :: name := if_neg h

/-- Names are appended with slashes between them. -/
theorem nativePath_eq {realPath : Bytes} {q : NodePath} (hreal : realPath.getLast? ≠ some 0x2f)
    (hq : ∀ name ∈ q, ¬ invalidName name) :
    nativePath realPath q = realPath ++ q.flatMap fun c => 0x2f :: c := by
  induction q generalizing realPath with
  | nil => exact (List.append_nil _).symm
  | cons name q ih =>
      obtain ⟨hname, -⟩ := normal_of_not_invalid (hq name List.mem_cons_self)
      have hlast : (realPath ++ 0x2f :: name).getLast? ≠ some 0x2f := by
        rw [List.getLast?_append_of_ne_nil _ (List.cons_ne_nil _ _),
          List.getLast?_cons_of_ne_nil hname.1]
        intro h
        exact hname.2.2.2 (List.mem_of_getLast? h)
      rw [nativePath, List.foldl_cons, nativeAppend_of_last hreal]
      show nativePath _ q = _
      rw [ih hlast fun c hc => hq c (List.mem_cons_of_mem _ hc), List.flatMap_cons,
        List.append_assoc]

/-- The path of a store path does not end in a slash. -/
theorem getLast_ne_slash (dir : Bytes) (p : StorePath) :
    (nativeAppend dir p.baseName).getLast? ≠ some 0x2f := by
  obtain ⟨hne, -, -, hslash⟩ := p.normalComponent_name
  have hends : ∀ pre : Bytes, (pre ++ p.baseName).getLast? ≠ some 0x2f := by
    intro pre h
    rw [p.baseName_eq, ← List.append_assoc, List.getLast?_append_of_ne_nil _ (List.cons_ne_nil _ _),
      List.getLast?_cons_of_ne_nil hne] at h
    exact hslash (List.mem_of_getLast? h)
  unfold nativeAppend
  split
  · exact hends dir
  · have := hends (dir ++ [0x2f])
    rwa [List.append_assoc, List.singleton_append] at this

/-- `optimisePath_` looks a file up under the key that it was captured with. -/
theorem lookupKey_eq (dir : Bytes) (p : StorePath) {q : NodePath}
    (hq : ∀ name ∈ q, ¬ invalidName name) :
    lookupKey (nativeAppend dir p.baseName) q = renderPath q := by
  rw [lookupKey, nativePath_eq (getLast_ne_slash dir p) hq, List.drop_left]
  cases q with
  | nil => rfl
  | cons name q =>
      rw [renderPath, if_neg (List.cons_ne_nil _ _), if_neg]
      rw [List.flatMap_cons]
      exact List.cons_ne_nil _ _

/-- The events of a call. -/
def Call.events : Call → List Ev
  | .createRegularFile path => [.begin path]
  | .isExecutable _ => [.exec]
  | .preallocateContents _ size => [.size size]
  | .write _ data => [.data data]
  | .finishRegularFile _ => [.finish]
  | _ => []

namespace Restoring

-- ============================================================================
-- A hasher without a queue
-- ============================================================================

/-- A hasher that takes each event at once: the file it is at, and `files`. -/
structure Ledger where
  job : Job
  files : List (NodePath × Hash)

section Ledger

variable (store : StoreDirConfig)

/-- `files.insert_or_assign`. -/
def enter (files : List (NodePath × Hash)) (j : Job) : List (NodePath × Hash) :=
  (j.key, (store.hashString .sha256 j.hashed).1) :: files.filter fun e => e.1 ≠ j.key

/-- An event. -/
def Ledger.take (l : Ledger) (ev : Ev) : Ledger where
  job := l.job.absorb ev
  files := if ev = .finish then enter store l.files (l.job.absorb ev) else l.files

/-- What the worker will have recorded when it has caught up. -/
def ledger (w : Restoring) : Ledger := ⟨w.tail, w.pending.foldl (enter store) w.files⟩

variable (linkFails : NodePath → Bool) (threaded : Bool) {w w' : Restoring}

theorem ledger_record (hpc : w.pc ≠ .ready) : (w.record store).ledger store = w.ledger store := by
  unfold ledger
  rw [pending_record store hpc]
  rfl

/-- The worker's steps bring nothing into the ledger that was not due. -/
theorem ledger_workerStep : (w.workerStep store linkFails).ledger store = w.ledger store := by
  unfold workerStep
  split
  · next hpc =>
      split
      · rfl
      · next ev rest hevents =>
          -- an event that is absorbed counts as before, in the job instead of in the queue
          have htail : tailFrom (w.job.absorb ev) rest = w.tail := by
            rw [tail, hevents]
            rfl
          have hdue : w.pending = (if ev = .finish then [w.job.absorb ev] else []) ++
              endsAmong (w.job.absorb ev) rest := by
            rw [pending, if_pos hpc, hevents]
            rfl
          simp only
          split
          · next hfinish =>
              rw [if_pos hfinish] at hdue
              have hended : ({ w with
                  job := w.job.absorb ev, events := rest, pc := .lstat } : Restoring).ledger store
                  = w.ledger store := by
                rw [ledger, ledger, hdue, ← htail]
                rfl
              split
              · rw [← hended]
                exact ledger_record store (w := { w with
                  job := w.job.absorb ev, events := rest, pc := .lstat }) fun h => by cases h
              · exact hended
          · next hfinish =>
              rw [if_neg hfinish, List.nil_append] at hdue
              rw [ledger, ledger, hdue, ← htail, pending, if_pos hpc]
              rfl
  · next hpc =>
      split
      · rw [ledger, ledger, pending, pending, if_neg (fun h => by cases h),
          if_neg (by rw [hpc]; decide)]
        rfl
      · exact ledger_record store (by rw [hpc]; decide)
  · next hpc =>
      split
      · rw [ledger, ledger, pending, pending, if_neg (fun h => by cases h),
          if_neg (by rw [hpc]; decide)]
        rfl
      · exact ledger_record store (by rw [hpc]; decide)
  · next hpc =>
      split
      · next fs _ =>
          exact ledger_record store (w := { w with
            fs
            dedupedFiles := w.dedupedFiles + 1
            dedupedBytes := w.dedupedBytes + w.job.size }) (by rw [hpc]; decide)
      · rw [ledger, ledger, pending, pending, if_neg (fun h => by cases h),
          if_neg (by rw [hpc]; decide)]
        rfl
  · next hpc =>
      exact ledger_record store (w := { w with fs := w.fs.unlink (dedupName w.job.key) })
        (by rw [hpc]; decide)

theorem ledger_steps (n : Nat) : (steps store linkFails n w).ledger store = w.ledger store :=
  steps_keep (P := fun w' => w'.ledger store = w.ledger store)
    (fun _ h => (ledger_workerStep store linkFails).trans h) n rfl

theorem ledger_turn : (w.turn store linkFails).ledger store = w.ledger store := by
  unfold turn
  split
  · rfl
  · exact ledger_steps store linkFails _

/-- An event in the queue counts as taken. -/
theorem ledger_enqueue (ev : Ev) : ({ w with events := w.events ++ [ev] } : Restoring).ledger store
    = (w.ledger store).take store ev := by
  have hdue : ({ w with events := w.events ++ [ev] } : Restoring).pending = w.pending ++
      (if ev = .finish then [w.tail.absorb ev] else []) := by
    rw [pending, pending, endsAmong_snoc, ← List.append_assoc]
    rfl
  have htail : ({ w with events := w.events ++ [ev] } : Restoring).tail = w.tail.absorb ev :=
    tailFrom_snoc _ _ _
  rw [ledger, htail, hdue, List.foldl_append, Ledger.take, ledger]
  congr 1
  split <;> rfl

theorem ledger_push (ev : Ev) :
    (push store linkFails threaded ev w).ledger store = (w.ledger store).take store ev := by
  unfold push
  split
  · have hwait : (awaitRoom store linkFails w.work w).ledger store = w.ledger store :=
      awaitRoom_keep (P := fun w' => w'.ledger store = w.ledger store)
        (fun _ h => (ledger_workerStep store linkFails).trans h) _ rfl
    rw [← hwait]
    exact ledger_enqueue store ev
  · exact (ledger_steps store linkFails _).trans (ledger_enqueue store ev)

/-- A joined worker has recorded all that was due. -/
theorem files_close : (w.close store linkFails).files = (w.ledger store).files := by
  have hqueue : (w.close store linkFails).events = [] := by
    have hdone : (w.close store linkFails).work = 0 := work_close linkFails
    unfold work at hdone
    exact List.length_eq_zero_iff.mp (by omega)
  have hdue : (w.close store linkFails).pending = [] := by
    rw [pending, if_pos (close_ready linkFails), hqueue]
    rfl
  have hkept : (w.close store linkFails).ledger store = w.ledger store :=
    ledger_steps store linkFails _
  rw [← hkept, ledger, hdue]
  rfl

theorem ledger_newEntry (what : String) (path : NodePath)
    (make : Fs Place Object → Option (Fs Place Object)) (h : newEntry what path make w = .ok w') :
    w'.ledger store = w.ledger store := by
  obtain ⟨-, -, h⟩ := NixStore.bind_eq_ok.mp h
  split at h
  · cases h
    rfl
  · cases h

theorem ledger_fdWrite (d : Bytes) : (w.fdWrite d).ledger store = w.ledger store := by
  unfold fdWrite
  split <;> rfl

/-- The worker's turn, an event and another turn. -/
theorem ledger_reported (ev : Ev) :
    ((push store linkFails threaded ev (w.turn store linkFails)).turn store linkFails).ledger store
      = (w.ledger store).take store ev := by
  rw [ledger_turn, ledger_push, ledger_turn]

/-- A call that succeeds has its events taken. -/
theorem ledger_call {c : Call} (h : c.run (fileHashingSink store linkFails threaded) w = .ok w') :
    w'.ledger store = c.events.foldl (Ledger.take store) (w.ledger store) := by
  cases c with
  | createDirectory path =>
      exact (ledger_newEntry store "directory" path (·.mkdir (.inside path)) h).trans
        (ledger_turn store linkFails)
  | createSymlink path target =>
      exact (ledger_newEntry store "symlink" path (·.create (.inside path) (.symlink target)) h).trans
        (ledger_turn store linkFails)
  | createRegularFile path =>
      obtain ⟨w₁, hmade, h⟩ := NixStore.bind_eq_ok.mp h
      cases h
      rw [ledger_push, ledger_turn]
      exact congrArg (fun l => Ledger.take store l (.begin path))
        ((ledger_newEntry store "file" path (·.create (.inside path) (.regular false []))
          hmade).trans (ledger_turn store linkFails))
  | isExecutable path =>
      cases h
      exact ledger_reported store linkFails threaded .exec
  | preallocateContents path size =>
      cases h
      rw [ledger_push, ledger_turn]
      rfl
  | write path data =>
      cases h
      rw [ledger_fdWrite]
      exact ledger_reported store linkFails threaded (.data data)
  | finishRegularFile path =>
      cases h
      exact ledger_reported store linkFails threaded .finish

-- ============================================================================
-- What the events of the calls build
-- ============================================================================

/-- The files that have ended are those of the view, under their paths. -/
structure Captures (b : Built) (l : Ledger) : Prop where
  nodup : (l.files.map Prod.fst).Nodup
  exact : ∀ q h, (q, h) ∈ l.files ↔ ∃ executable contents,
    b.view q = some (.object (.regular executable contents)) ∧
    (∀ cur, b.current = some cur → q ≠ cur.path) ∧
    h = (store.hashString .sha256 (fileNar executable contents)).1
  writing : ∀ cur, b.current = some cur → ∃ executable contents,
    b.view cur.path = some (.object (.regular executable contents)) ∧
    Agrees executable contents cur l.job

variable {store}

theorem mem_enter {files : List (NodePath × Hash)} {j : Job} {q : NodePath} {h : Hash} :
    (q, h) ∈ enter store files j ↔
      q = j.key ∧ h = (store.hashString .sha256 j.hashed).1 ∨ q ≠ j.key ∧ (q, h) ∈ files := by
  rw [enter, List.mem_cons, Prod.mk.injEq, List.mem_filter, decide_eq_true_iff]
  exact or_congr_right And.comm

theorem nodup_enter {files : List (NodePath × Hash)} (j : Job) (h : (files.map Prod.fst).Nodup) :
    ((enter store files j).map Prod.fst).Nodup := by
  rw [enter, List.map_cons, List.nodup_cons]
  refine ⟨fun hin => ?_, (List.filter_sublist.map _).nodup h⟩
  obtain ⟨e, he, hkey⟩ := List.mem_map.mp hin
  exact of_decide_eq_true (List.mem_filter.mp he).2 hkey

/-- A new name that is not a regular file. -/
theorem Captures.created {v : View} {l : Ledger} (h : Captures store ⟨v, none⟩ l) {path : NodePath}
    {n : Node Object} (hnone : v path = none)
    (hn : ∀ executable contents, n ≠ .object (.regular executable contents)) :
    Captures store ⟨v.set path n, none⟩ l := by
  refine ⟨h.nodup, fun q hash => (h.exact q hash).trans ?_, nofun⟩
  refine exists₂_congr fun e c => and_congr_left fun _ => ?_
  show v q = _ ↔ v.set path n q = _
  by_cases hq : q = path
  · subst hq
    rw [View.set_self, hnone]
    exact iff_of_false nofun fun heq => hn e c (Option.some.inj heq)
  · rw [View.set_of_ne v n hq]

/-- The file that is being written is not among those that have ended. -/
theorem Captures.writes {b : Built} {v' : View} {l l' : Ledger} {cur : Current}
    (h : Captures store b l) (hother : ∀ q, q ≠ cur.path → v' q = b.view q)
    (hopen : (∃ cur₀, b.current = some cur₀ ∧ cur₀.path = cur.path) ∨
      b.current = none ∧ b.view cur.path = none) {executable : Bool} {contents : Bytes}
    (hview : v' cur.path = some (.object (.regular executable contents)))
    (hfiles : l'.files = l.files) (hagrees : Agrees executable contents cur l'.job) :
    Captures store ⟨v', some cur⟩ l' := by
  refine ⟨?_, fun q hash => ?_, fun cur' hcur' => ?_⟩
  · rw [hfiles]
    exact h.nodup
  · rw [hfiles, h.exact q hash]
    refine exists₂_congr fun e c => ?_
    show b.view q = _ ∧ _ ↔ v' q = _ ∧ _
    by_cases hq : q = cur.path
    · -- neither side counts the open file
      refine iff_of_false (fun hat => ?_) fun hat => hat.2.1 cur rfl hq
      rcases hopen with ⟨cur₀, hcur₀, hpath⟩ | ⟨-, hnone⟩
      · exact hat.2.1 cur₀ hcur₀ (hq.trans hpath.symm)
      · rw [hq, hnone] at hat
        cases hat.1
    · rw [hother q hq]
      refine and_congr_right fun _ => and_congr_left fun _ => iff_of_true ?_ ?_
      · intro cur₀ hcur₀
        rcases hopen with ⟨cur₁, hcur₁, hpath⟩ | ⟨hclosed, -⟩
        · cases hcur₁.symm.trans hcur₀
          rw [hpath]
          exact hq
        · rw [hclosed] at hcur₀
          cases hcur₀
      · rintro cur' ⟨⟩
        exact hq
  · cases hcur'
    exact ⟨executable, contents, hview, hagrees⟩

/-- The file ends, and its hash is recorded. -/
theorem Captures.ended {v : View} {l l' : Ledger} {cur : Current}
    (h : Captures store ⟨v, some cur⟩ l) {executable : Bool} {contents : Bytes}
    (hview : v cur.path = some (.object (.regular executable contents)))
    (hkey : l'.job.key = cur.path) (hhashed : l'.job.hashed = fileNar executable contents)
    (hfiles : l'.files = enter store l.files l'.job) : Captures store ⟨v, none⟩ l' := by
  refine ⟨?_, fun q hash => ?_, nofun⟩
  · rw [hfiles]
    exact nodup_enter _ h.nodup
  · rw [hfiles, mem_enter, hkey, hhashed]
    constructor
    · rintro (⟨rfl, rfl⟩ | ⟨-, hin⟩)
      · exact ⟨executable, contents, hview, nofun, rfl⟩
      · obtain ⟨e, c, hat, -, hhash⟩ := (h.exact q hash).mp hin
        exact ⟨e, c, hat, nofun, hhash⟩
    · rintro ⟨e, c, hat, -, rfl⟩
      by_cases hq : q = cur.path
      · subst hq
        cases hview.symm.trans hat
        exact .inl ⟨rfl, rfl⟩
      · refine .inr ⟨hq, (h.exact q _).mpr ⟨e, c, hat, ?_, rfl⟩⟩
        rintro cur' ⟨⟩
        exact hq

/-- The events of a call in its place keep the map and the view together. -/
theorem Captures.step {files : Bool → Bytes → Prop} {b b' : Built} {c : Call} {l : Ledger}
    (h : Captures store b l) (hstep : SeqStep files b c b') :
    Captures store b' (c.events.foldl (Ledger.take store) l) := by
  cases hstep with
  | directory hroom => exact h.created hroom.1 nofun
  | symlink hroom => exact h.created hroom.1 nofun
  | @regular v path hroom =>
      exact h.writes (fun q hq => View.set_of_ne v _ hq) (.inr ⟨rfl, hroom.1⟩)
        (View.set_self _ _ _) rfl (Agrees.begin path l.job)
  | @executable v path hview =>
      obtain ⟨e, c, hat, hagrees⟩ := h.writing _ rfl
      cases hview.symm.trans hat
      exact h.writes (fun q hq => View.set_of_ne v _ hq) (.inl ⟨_, rfl, rfl⟩)
        (View.set_self _ _ _) rfl hagrees.exec
  | @size v path executable n hview =>
      obtain ⟨e, c, hat, hagrees⟩ := h.writing _ rfl
      cases hview.symm.trans hat
      exact h.writes (fun q _ => rfl) (.inl ⟨_, rfl, rfl⟩) hview rfl (hagrees.size n)
  | @data v path executable contents data n hview =>
      obtain ⟨e, c, hat, hagrees⟩ := h.writing _ rfl
      cases hview.symm.trans hat
      exact h.writes (fun q hq => View.set_of_ne v _ hq) (.inl ⟨_, rfl, rfl⟩)
        (View.set_self _ _ _) rfl (hagrees.data data)
  | @finish v path executable contents hview _ =>
      obtain ⟨e, c, hat, hagrees⟩ := h.writing _ rfl
      cases hview.symm.trans hat
      exact h.ended hview hagrees.key hagrees.finish rfl

/-- The calls of a whole run. -/
theorem Captures.run {files : Bool → Bytes → Prop} {b b' : Built} {l : List Call}
    (hrun : SeqRun files b l b') {w w' : Restoring} (h : Captures store b (w.ledger store))
    (hcalls : runCalls (fileHashingSink store linkFails threaded) l w = .ok w') :
    Captures store b' (w'.ledger store) := by
  induction hrun generalizing w with
  | nil b =>
      cases hcalls
      exact h
  | cons hstep _ ih =>
      obtain ⟨w₁, hcall, hrest⟩ := NixStore.bind_eq_ok.mp hcalls
      refine ih ?_ hrest
      rw [ledger_call store linkFails threaded hcall]
      exact h.step hstep

-- ============================================================================
-- The captured hashes
-- ============================================================================

/-- The map has one key for each regular file of the tree: the string that
    `optimisePath_` looks up for it, with the hash that it would compute. -/
structure Captured (store : StoreDirConfig) (f : File) (w : Restoring) : Prop where
  nodup : (w.files.map Prod.fst).Nodup
  exact : ∀ q h, (q, h) ∈ w.files ↔ ∃ executable contents,
    f.at? q = some (.regular executable contents) ∧
    hashPath store (.regular executable contents) = .ok h
  lookedUp : ∀ e ∈ w.files, ∀ dir (p : StorePath),
    fileBeginKey e.1 = .ok (lookupKey (nativeAppend dir p.baseName) e.1)
  apart : ∀ e ∈ w.files, ∀ e' ∈ w.files, fileBeginKey e.1 = fileBeginKey e'.1 → e.1 = e'.1

/-- The hash of a single file is that of its archive. -/
theorem hashPath_regular {executable : Bool} {contents : Bytes} (h : contents.length < 2 ^ 64) :
    hashPath store (.regular executable contents)
      = .ok (store.hashString .sha256 (fileNar executable contents)).1 := by
  have hlim : (File.regular executable contents).WithinLimits narMaxDepth := ⟨by decide, h⟩
  have hnar : writeString narVersionMagic1 ++ (File.regular executable contents).toNar.encode
      = fileNar executable contents := by
    simp only [File.toNar, NarNode.encode, fileNar, List.append_assoc]
  show dumpPath NarNode.plain defaultPathFilter (File.regular executable contents) >>= _ = _
  rw [NarNode.dumpPath_eq_ok hlim, ok_bind, hnar]
  rfl

theorem view_eq_regular {f : File} {q : NodePath} {executable : Bool} {contents : Bytes} :
    f.view q = some (.object (.regular executable contents)) ↔
      f.at? q = some (.regular executable contents) := by
  unfold File.view
  cases f.at? q with
  | none => exact iff_of_false nofun nofun
  | some g =>
      cases g with
      | regular e c =>
          constructor
          · intro h
            cases h
            rfl
          · intro h
            cases h
            rfl
      | directory es => exact iff_of_false nofun nofun
      | symlink t => exact iff_of_false nofun nofun

/-- What a joined hasher has captured after the calls for an archive. -/
theorem files_close_exact {f : File} (hlim : f.WithinLimits narMaxDepth) {l : List Call}
    (hfeeds : NarNode.Feeds [] f.toNar l) {w₀ w : Restoring} (hpc : w₀.pc = .ready)
    (hevents : w₀.events = []) (hfiles : w₀.files = [])
    (hrun : runCalls (fileHashingSink store linkFails threaded) l w₀ = .ok w) :
    ((w.close store linkFails).files.map Prod.fst).Nodup ∧
      ∀ q h, (q, h) ∈ (w.close store linkFails).files ↔ ∃ executable contents,
        f.at? q = some (.regular executable contents) ∧
        hashPath store (.regular executable contents) = .ok h := by
  have hstart : Captures store ⟨fun _ => none, none⟩ (w₀.ledger store) := by
    have hnone : (w₀.ledger store).files = [] := by
      rw [ledger, pending, if_pos hpc, hevents]
      exact hfiles
    refine ⟨?_, fun q h => ?_, fun _ h => by cases h⟩
    · rw [hnone]
      exact List.nodup_nil
    · rw [hnone]
      refine iff_of_false List.not_mem_nil ?_
      rintro ⟨e, c, hview, -⟩
      cases hview
  have hend := Captures.run linkFails threaded (seqRun_tree hlim hfeeds) hstart hrun
  rw [files_close store linkFails]
  refine ⟨hend.nodup, fun q h => ?_⟩
  rw [hend.exact]
  refine exists₂_congr fun e c => ?_
  rw [show (Built.mk f.view none).view = f.view from rfl, view_eq_regular]
  refine and_congr_right fun hat => ?_
  obtain ⟨-, levels, -, hlength⟩ := hlim.at? hat
  rw [hashPath_regular hlength, Except.ok.injEq]
  exact ⟨fun h => h.2.symm, fun h => ⟨fun _ h => (by cases h), h.symm⟩⟩

/-- The keys of the files of a tree are what `optimisePath_` looks up, and no
    two files have the same. -/
theorem captured_of_exact {f : File} (hlim : f.WithinLimits narMaxDepth) {w : Restoring}
    (hnodup : (w.files.map Prod.fst).Nodup)
    (hexact : ∀ q h, (q, h) ∈ w.files ↔ ∃ executable contents,
      f.at? q = some (.regular executable contents) ∧
      hashPath store (.regular executable contents) = .ok h) : Captured store f w := by
  have hnames : ∀ e ∈ w.files, ∀ name ∈ e.1, ¬ invalidName name := by
    intro e he
    obtain ⟨executable, contents, hat, -⟩ := (hexact e.1 e.2).mp he
    exact (hlim.at? hat).1
  refine ⟨hnodup, hexact, fun e he dir p => ?_, fun e he e' he' hkeys => ?_⟩
  · rw [fileBeginKey_eq (hnames e he), lookupKey_eq dir p (hnames e he)]
  · rw [fileBeginKey_eq (hnames e he), fileBeginKey_eq (hnames e' he')] at hkeys
    exact CanonPath.ofComponents_inj
      (fun c hc => (normal_of_not_invalid (hnames e he c hc)).1)
      (fun c hc => (normal_of_not_invalid (hnames e' he' c hc)).1)
      (congrArg CanonPath.mk (Except.ok.inj hkeys))

/-- After the calls for an archive, in whatever pieces its contents come and
    however far the worker lags, a joined hasher has captured the hashes. -/
theorem close_captured {f : File} (hlim : f.WithinLimits narMaxDepth) {l : List Call}
    (hfeeds : NarNode.Feeds [] f.toNar l) {w₀ w : Restoring} (hpc : w₀.pc = .ready)
    (hevents : w₀.events = []) (hfiles : w₀.files = [])
    (hrun : runCalls (fileHashingSink store linkFails threaded) l w₀ = .ok w) :
    Captured store f (w.close store linkFails) := by
  obtain ⟨hnodup, hexact⟩ := files_close_exact linkFails threaded hlim hfeeds hpc hevents hfiles hrun
  exact captured_of_exact hlim hnodup hexact

/-- A directory with a file, and a directory with another one and a link. -/
def nestedTree : File :=
  .directory
    [(ascii "a", .regular false (ascii "x")),
     (ascii "d", .directory
      [(ascii "b", .regular true (ascii "yz")), (ascii "l", .symlink (ascii "b"))])]

/-- The worker lags behind and catches up in the end. -/
theorem close_captured_nested : ∃ w,
    runCalls (fileHashingSink DiskStore.Sample.measured (fun _ => false) true)
      (NarNode.calls [] nestedTree.toNar) (Sample.start [0, 3, 0, 1, 2]) = .ok w ∧
    Captured DiskStore.Sample.measured nestedTree
      (w.close DiskStore.Sample.measured fun _ => false) := by
  have hruns : (runCalls (fileHashingSink DiskStore.Sample.measured (fun _ => false) true)
      (NarNode.calls [] nestedTree.toNar) (Sample.start [0, 3, 0, 1, 2])).isOk = true := by
    decide +kernel
  have hlim : nestedTree.WithinLimits narMaxDepth := by
    simp only [nestedTree, File.WithinLimits, File.EntriesWithinLimits, SortedMap.Ascending,
      List.pairwise_cons]
    decide
  cases hrun : runCalls (fileHashingSink DiskStore.Sample.measured (fun _ => false) true)
      (NarNode.calls [] nestedTree.toNar) (Sample.start [0, 3, 0, 1, 2]) with
  | error e =>
      rw [hrun] at hruns
      cases hruns
  | ok w =>
      exact ⟨w, rfl, close_captured (fun _ => false) true hlim (NarNode.feeds_calls [] _) rfl rfl
        rfl hrun⟩

/-- A restore through `restorePathCapturingHashes` is one such run. -/
theorem restorePathCapturingHashes_captured {source rest : Bytes} {w₀ w : Restoring}
    (hpc : w₀.pc = .ready) (hevents : w₀.events = []) (hfiles : w₀.files = [])
    (h : restorePathCapturingHashes store linkFails threaded source w₀ = .ok (rest, w)) :
    ∃ f nar, restorePath source = (some f, .ok nar) ∧ Captured store f w := by
  obtain ⟨f, nar, w', hrestore, -, hrun, rfl⟩ := restorePathCapturingHashes_eq_ok.mp h
  obtain ⟨hlim, -, -⟩ := restorePath_encode.mp hrestore
  obtain ⟨hnodup, hexact⟩ := files_close_exact linkFails threaded hlim
    (NarNode.feeds_calls [] f.toNar) hpc hevents hfiles hrun
  exact ⟨f, nar, hrestore, captured_of_exact hlim hnodup hexact⟩

end Ledger

end Restoring

end NixStore
