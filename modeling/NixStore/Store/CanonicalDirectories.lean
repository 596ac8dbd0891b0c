/-
  NixStore.Store.CanonicalDirectories

  The directories of a canonical restore.  When a directory is left all events
  that touch it are over (`leave_last`).  So a restore without a hasher stamps
  it then, for good; one with a hasher puts it off until the worker has been
  joined, and nobody else is left (`restoreTree_dir`).
-/

import NixStore.Store.CanonicalNames

namespace NixStore

open SortedMap

-- ============================================================================
-- What an event touches
-- ============================================================================

/-- The restoring thread may stamp a directory at this event. -/
def SinkEvent.Touches (q : NodePath) : SinkEvent → Prop
  | .call c => ∃ path, c.created = some path ∧ (q = path ∨ q = path.dropLast)
  | .leave path => q = path

theorem append_ne_self {path : NodePath} {name : Bytes} {r : NodePath} :
    path ++ name :: r ≠ path := by
  intro heq
  have hlength := congrArg List.length heq
  rw [List.length_append, List.length_cons] at hlength
  omega

namespace NarNode

/-- A regular file has one name. -/
theorem created_regularCalls {path p : NodePath} {executable : Bool} {contents : Bytes} {c : Call}
    (hc : c ∈ regularCalls path executable contents) (hcreated : c.created = some p) :
    p = path := by
  unfold regularCalls at hc
  simp only [List.mem_cons, List.mem_append, List.mem_map, List.not_mem_nil, or_false] at hc
  rcases hc with rfl | hexecutable | rfl | ⟨d, -, rfl⟩ | rfl
  · exact (Option.some.inj hcreated).symm
  · split at hexecutable
    · rw [List.mem_singleton.mp hexecutable] at hcreated
      cases hcreated
    · cases hexecutable
  · cases hcreated
  · cases hcreated
  · cases hcreated

mutual

/-- The events of a node touch what is at or below its path, and its
    directory. -/
theorem touches_events : ∀ (path : NodePath) (x : NarNode) {e : SinkEvent} {q : NodePath},
    e ∈ events path x → e.Touches q → q = path.dropLast ∨ path <+: q
  | path, .regular executable contents pad, e, q, he, htouches => by
      obtain ⟨c, hc, rfl⟩ := List.mem_map.mp he
      obtain ⟨p, hcreated, hq⟩ := htouches
      rw [created_regularCalls hc hcreated] at hq
      rcases hq with rfl | hq
      · exact Or.inr List.prefix_rfl
      · exact Or.inl hq
  | path, .symlink target, e, q, he, htouches => by
      cases List.mem_singleton.mp he
      obtain ⟨p, hcreated, hq⟩ := htouches
      cases hcreated
      rcases hq with rfl | hq
      · exact Or.inr List.prefix_rfl
      · exact Or.inl hq
  | path, .directory entries, e, q, he, htouches => by
      rcases List.mem_cons.mp he with rfl | he
      · obtain ⟨p, hcreated, hq⟩ := htouches
        cases hcreated
        rcases hq with rfl | hq
        · exact Or.inr List.prefix_rfl
        · exact Or.inl hq
      rcases List.mem_append.mp he with he | he
      · rcases touches_eventsEntries path entries he htouches with rfl | ⟨a, -, hpre⟩
        · exact Or.inr List.prefix_rfl
        · exact Or.inr ((List.prefix_append _ _).trans hpre)
      · cases List.mem_singleton.mp he
        cases htouches
        exact Or.inr List.prefix_rfl

theorem touches_eventsEntries : ∀ (path : NodePath) (es : List (Bytes × NarNode)) {e : SinkEvent}
    {q : NodePath}, e ∈ eventsEntries path es → e.Touches q →
    q = path ∨ ∃ a ∈ es, path ++ [a.1] <+: q
  | _, [], e, q, he, _ => absurd he List.not_mem_nil
  | path, (name, x) :: rest, e, q, he, htouches => by
      rcases List.mem_append.mp he with he | he
      · rcases touches_events (path ++ [name]) x he htouches with hq | hpre
        · rw [List.dropLast_concat] at hq
          exact Or.inl hq
        · exact Or.inr ⟨_, List.mem_cons_self, hpre⟩
      · rcases touches_eventsEntries path rest he htouches with hq | ⟨a, ha, hpre⟩
        · exact Or.inl hq
        · exact Or.inr ⟨a, List.mem_cons_of_mem _ ha, hpre⟩

end

mutual

/-- Every directory is left, and not touched after that. -/
theorem leave_last : ∀ {levels : Nat} {x : NarNode}, x.Legal levels → ∀ (path : NodePath)
    {r : NodePath}, x.toFile.view r = some .directory →
    ∃ l₁ l₂, events path x = l₁ ++ .leave (path ++ r) :: l₂ ∧ ∀ e ∈ l₂, ¬ e.Touches (path ++ r)
  | _, .regular executable contents pad, _, _, r, hview => by
      cases r <;> cases hview
  | _, .symlink target, _, _, r, hview => by
      cases r <;> cases hview
  | _, .directory entries, hlegal, path, [], _ => by
      refine ⟨.call (.createDirectory path) :: eventsEntries path entries, [], ?_, nofun⟩
      rw [events, List.append_nil]
      rfl
  | _, .directory entries, hlegal, path, name :: r, hview => by
      change Option.map File.node ((find? name (toFileEntries entries)).bind (File.at? r)) = _
        at hview
      cases hfind : find? name (toFileEntries entries) with
      | none =>
          rw [hfind] at hview
          cases hview
      | some f =>
          rw [hfind] at hview
          obtain ⟨l₁, l₂, hsplit, hlast⟩ := leaveEntries_last hlegal.2 path hfind hview
          refine ⟨.call (.createDirectory path) :: l₁, l₂ ++ [.leave path], ?_, fun e he => ?_⟩
          · rw [events, hsplit, List.append_assoc]
            rfl
          · rcases List.mem_append.mp he with he | he
            · exact hlast e he
            · cases List.mem_singleton.mp he
              exact append_ne_self

theorem leaveEntries_last : ∀ {levels : Nat} {prev : Bytes} {es : List (Bytes × NarNode)},
    LegalEntries levels prev es → ∀ (path : NodePath) {name : Bytes} {f : File} {r : NodePath},
    find? name (toFileEntries es) = some f → f.view r = some .directory →
    ∃ l₁ l₂, eventsEntries path es = l₁ ++ .leave (path ++ name :: r) :: l₂ ∧
      ∀ e ∈ l₂, ¬ e.Touches (path ++ name :: r)
  | _, _, [], _, _, _, _, _, hfind, _ => by cases hfind
  | _, _, (m, x) :: rest, hlegal, path, name, f, r, hfind, hview => by
      obtain ⟨-, -, -, hx, hrest⟩ := hlegal
      rw [toFileEntries, find?] at hfind
      by_cases hm : m = name
      · rw [if_pos hm] at hfind
        cases hfind
        subst hm
        obtain ⟨l₁, l₂, hsplit, hlast⟩ := leave_last hx (path ++ [m]) hview
        rw [List.append_assoc, List.singleton_append] at hsplit hlast
        refine ⟨l₁, l₂ ++ eventsEntries path rest, ?_, fun e he htouches => ?_⟩
        · rw [eventsEntries, hsplit, List.append_assoc]
          rfl
        · rcases List.mem_append.mp he with he | he
          · exact hlast e he htouches
          · -- the entries that follow have other names
            rcases touches_eventsEntries path rest he htouches with hq | ⟨a, ha, hpre⟩
            · exact append_ne_self hq
            · have hlt := hrest.lt a ha
              rw [prefix_entry hpre] at hlt
              exact Std.lt_irrefl hlt
      · rw [if_neg hm] at hfind
        obtain ⟨l₁, l₂, hsplit, hlast⟩ := leaveEntries_last hrest path hfind hview
        refine ⟨events (path ++ [m]) x ++ l₁, l₂, ?_, hlast⟩
        rw [eventsEntries, hsplit, List.append_assoc]

end

end NarNode

namespace Stamping

section

variable {store : StoreDirConfig} {linkFails : NodePath → Bool} {clock : Nat → Int}
  {o : RestoreOptions} {s s' : Stamping} {q : NodePath}

-- ============================================================================
-- Without a hasher
-- ============================================================================

theorem pause_plain (h : o.hasher = none) : s.pause store linkFails clock o = s := by
  unfold pause
  rw [h]

theorem report_plain (h : o.hasher = none) (ev : Ev) : s.report store linkFails clock o ev = s := by
  unfold report
  rw [h]

theorem entryChanged_dir {path : NodePath} (hq : q ≠ path.dropLast) :
    (s.entryChanged clock path).dir q = s.dir q := by
  unfold entryChanged
  split
  · rfl
  · exact Function.update_of_ne hq _ _

theorem newEntry_dir {what : String} {path : NodePath}
    {make : Fs Place Object → Option (Fs Place Object)} (hq : q ≠ path.dropLast)
    (h : s.newEntry clock what path make = .ok s') : s'.dir q = s.dir q := by
  obtain ⟨fs, -, rfl⟩ := newEntry_eq_ok h
  exact entryChanged_dir hq

/-- A call changes no directory that it does not touch. -/
theorem call_dir (hplain : o.hasher = none) {c : Call} (hq : ¬ (SinkEvent.call c).Touches q)
    (hrun : c.run (restoreSink store linkFails clock o) s = .ok s') : s'.dir q = s.dir q := by
  have hbeside : ∀ path, c.created = some path → q ≠ path ∧ q ≠ path.dropLast := fun path hpath =>
    ⟨fun heq => hq ⟨path, hpath, Or.inl heq⟩, fun heq => hq ⟨path, hpath, Or.inr heq⟩⟩
  cases c with
  | createDirectory path =>
      obtain ⟨hne, hparent⟩ := hbeside path rfl
      obtain ⟨s₁, hentry, hs⟩ := bind_eq_ok.mp hrun
      rw [pause_plain hplain] at hentry
      cases hs
      exact (Function.update_of_ne hne _ _).trans (newEntry_dir hparent hentry)
  | createSymlink path target =>
      obtain ⟨-, hparent⟩ := hbeside path rfl
      obtain ⟨s₁, hentry, hs⟩ := bind_eq_ok.mp hrun
      rw [pause_plain hplain] at hentry
      rw [← newEntry_dir hparent hentry]
      cases hs
      split <;> rfl
  | createRegularFile path =>
      obtain ⟨-, hparent⟩ := hbeside path rfl
      obtain ⟨s₁, hentry, hs⟩ := bind_eq_ok.mp hrun
      rw [pause_plain hplain] at hentry
      rw [← newEntry_dir hparent hentry]
      cases hs
      rw [report_plain hplain, pause_plain hplain]
      rfl
  | isExecutable path =>
      cases hrun
      rw [pause_plain hplain, report_plain hplain, pause_plain hplain]
      split <;> rfl
  | preallocateContents path size =>
      cases hrun
      rw [pause_plain hplain, report_plain hplain]
  | write path data =>
      cases hrun
      rw [pause_plain hplain, report_plain hplain, pause_plain hplain]
      split <;> rfl
  | finishRegularFile path =>
      cases hrun
      rw [pause_plain hplain, report_plain hplain, pause_plain hplain]
      split
      · show Stamping.dir (if _ then _ else _) q = _
        split <;> rfl
      · split <;> rfl

theorem finishCanonical_dir {path : NodePath} (hq : q ≠ path) :
    (s.finishCanonical o path).dir q = s.dir q := by
  unfold finishCanonical
  split
  · rfl
  · split
    · rfl
    · exact Function.update_of_ne hq _ _

/-- Events that do not touch a directory do not change it. -/
theorem runEvents_dir (hplain : o.hasher = none) {l : List SinkEvent}
    (hq : ∀ e ∈ l, ¬ e.Touches q) (hrun : runEvents store linkFails clock o l s = .ok s') :
    s'.dir q = s.dir q := by
  induction l generalizing s with
  | nil =>
      cases hrun
      rfl
  | cons e l ih =>
      have hfirst := hq e List.mem_cons_self
      have hrest : ∀ e ∈ l, ¬ e.Touches q := fun e he => hq e (List.mem_cons_of_mem _ he)
      cases e with
      | call c =>
          obtain ⟨s₁, hcall, hrun'⟩ := bind_eq_ok.mp hrun
          exact (ih hrest hrun').trans (call_dir hplain hfirst hcall)
      | leave path => exact (ih hrest hrun).trans (finishCanonical_dir hfirst)

theorem runEvents_append (l l' : List SinkEvent) (s : Stamping) :
    runEvents store linkFails clock o (l ++ l') s
      = runEvents store linkFails clock o l s >>= runEvents store linkFails clock o l' := by
  induction l generalizing s with
  | nil => rfl
  | cons e l ih =>
      cases e with
      | call c =>
          rw [List.cons_append, runEvents, runEvents, except_bind_assoc]
          congr 1
          funext s₁
          exact ih s₁
      | leave path => exact ih _

-- ============================================================================
-- With a hasher
-- ============================================================================

theorem newEntry_deferred {what : String} {path : NodePath}
    {make : Fs Place Object → Option (Fs Place Object)}
    (h : s.newEntry clock what path make = .ok s') : s'.deferred = s.deferred := by
  obtain ⟨fs, -, rfl⟩ := newEntry_eq_ok h
  exact (worked_entryChanged clock path).deferred

/-- Calls put nothing off. -/
theorem call_deferred {c : Call} (hrun : c.run (restoreSink store linkFails clock o) s = .ok s') :
    s'.deferred = s.deferred := by
  have hpause : (s.pause store linkFails clock o).deferred = s.deferred := worked_pause.deferred
  have hreported : ∀ ev, (((s.pause store linkFails clock o).report store linkFails clock o
      ev).pause store linkFails clock o).deferred = s.deferred := fun ev =>
    (worked_reported store linkFails clock o ev).deferred
  cases c with
  | createDirectory path => exact (worked_directory hrun).deferred
  | createSymlink path target =>
      obtain ⟨s₁, hentry, hs⟩ := bind_eq_ok.mp hrun
      rw [← hpause, ← newEntry_deferred hentry]
      cases hs
      split <;> rfl
  | createRegularFile path =>
      obtain ⟨s₁, hentry, hs⟩ := bind_eq_ok.mp hrun
      rw [← hpause, ← newEntry_deferred hentry]
      cases hs
      exact (worked_pause.trans (worked_report _)).deferred
  | isExecutable path =>
      rw [← hreported .exec]
      cases hrun
      split <;> rfl
  | preallocateContents path size =>
      cases hrun
      exact (worked_pause.trans (worked_report _)).deferred
  | write path data =>
      rw [← hreported (.data data)]
      cases hrun
      split <;> rfl
  | finishRegularFile path =>
      rw [← hreported .finish]
      cases hrun
      split
      · show Stamping.deferred (if _ then _ else _) = _
        split <;> rfl
      · split <;> rfl

/-- What is left is put off, and stays so. -/
theorem runEvents_deferred (hcanonical : o.canonical = true) (hhasher : o.hasher.isSome)
    {l : List SinkEvent} (hrun : runEvents store linkFails clock o l s = .ok s') (hq : q ≠ [])
    (hleft : q ∈ s.deferred ∨ .leave q ∈ l) : q ∈ s'.deferred := by
  induction l generalizing s with
  | nil =>
      cases hrun
      exact hleft.resolve_right List.not_mem_nil
  | cons e l ih =>
      cases e with
      | call c =>
          obtain ⟨s₁, hcall, hrest⟩ := bind_eq_ok.mp hrun
          refine ih hrest (hleft.imp (fun hin => ?_) fun hin => ?_)
          · rw [call_deferred hcall]
            exact hin
          · exact (List.mem_cons.mp hin).resolve_left nofun
      | leave path =>
          have hput : path ≠ [] →
              (s.finishCanonical o path).deferred = s.deferred ++ [path] := by
            intro hpath
            unfold finishCanonical
            rw [if_neg (by rw [hcanonical]; simpa using hpath), if_pos hhasher]
          have hkept : s.deferred ⊆ (s.finishCanonical o path).deferred := by
            by_cases hpath : path = []
            · unfold finishCanonical
              rw [if_pos (Or.inl hpath)]
              exact List.Subset.refl _
            · rw [hput hpath]
              exact List.subset_append_left _ _
          refine ih hrun ?_
          rcases hleft with hin | hin
          · exact Or.inl (hkept hin)
          · rcases List.mem_cons.mp hin with heq | hin
            · cases heq
              rw [hput hq]
              exact Or.inl (List.mem_append_right _ List.mem_cons_self)
            · exact Or.inr hin

/-- The directories that were put off are stamped, and nothing else. -/
theorem stampDeferred_keeps (s : Stamping) : s.stampDeferred.w = s.w ∧ Worked s s.stampDeferred ∧
    ∀ q ∈ s.deferred, s.stampDeferred.dir q = Node.directory.metadata := by
  have hfold : ∀ (l : List NodePath) (s : Stamping),
      let s' := l.foldl (fun s path => s.setDir path ⟨0o755#12, mtimeStore⟩) s
      s'.w = s.w ∧ Worked s s' ∧
        ∀ q, q ∈ l ∨ s.dir q = Node.directory.metadata → s'.dir q = Node.directory.metadata := by
    intro l
    induction l with
    | nil => exact fun s => ⟨rfl, Worked.refl s, fun q hq => hq.resolve_left List.not_mem_nil⟩
    | cons path l ih =>
        intro s
        have hset : Worked s (s.setDir path ⟨0o755#12, mtimeStore⟩) :=
          ⟨rfl, rfl, rfl, rfl, rfl, rfl, rfl⟩
        obtain ⟨hw, hworked, hdir⟩ := ih (s.setDir path ⟨0o755#12, mtimeStore⟩)
        refine ⟨hw, hset.trans hworked, fun q hq => hdir q ?_⟩
        by_cases hpath : q = path
        · right
          rw [hpath]
          exact Function.update_self _ _ _
        · refine hq.imp (fun hin => (List.mem_cons.mp hin).resolve_left hpath) fun hold => ?_
          exact (Function.update_of_ne hpath _ _).trans hold
  obtain ⟨hw, hworked, hdir⟩ := hfold s.deferred s
  exact ⟨hw, hworked, fun q hq => hdir q (Or.inl hq)⟩

-- ============================================================================
-- Directories
-- ============================================================================

/-- A canonical restore stamps every directory but the root. -/
theorem restoreTree_dir {f : File} (hlim : f.WithinLimits narMaxDepth)
    (hcanonical : o.canonical = true) (hrun : s.restoreTree store linkFails clock o f = .ok s')
    (hq : q ≠ []) (hview : f.view q = some .directory) :
    s'.dir q = Node.directory.metadata := by
  obtain ⟨s₁, hevents, hs⟩ := bind_eq_ok.mp hrun
  have hlegal := NarNode.legal_toNar.mpr hlim
  rw [← NarNode.toFile_toNar f] at hview
  obtain ⟨l₁, l₂, hsplit, hlast⟩ := NarNode.leave_last hlegal [] hview
  rw [List.nil_append] at hsplit hlast
  rw [hsplit] at hevents
  cases hhasher : o.hasher with
  | none =>
      rw [hhasher] at hs
      cases hs
      rw [runEvents_append] at hevents
      obtain ⟨s₂, -, hrest⟩ := bind_eq_ok.mp hevents
      rw [runEvents_dir hhasher hlast hrest]
      unfold finishCanonical
      rw [if_neg (by rw [hcanonical]; simpa using hq), hhasher]
      exact Function.update_self _ _ _
  | some threaded =>
      rw [hhasher] at hs
      cases hs
      refine (stampDeferred_keeps _).2.2 q ?_
      have hclosed : (s₁.close store linkFails clock).deferred = s₁.deferred :=
        (worked_steps _).deferred
      rw [hclosed]
      refine runEvents_deferred hcanonical (by rw [hhasher]; rfl) hevents hq (Or.inr ?_)
      exact List.mem_append_right _ List.mem_cons_self

end

end Stamping

end NixStore
