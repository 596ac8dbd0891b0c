/-
  NixStore.Store.CanonicalNames

  What the names of a restore stand for, whatever the worker does: an inode
  that the restore has made, or one of the link farm (`Linked`).  A run makes
  the calls among its events (`runEvents_w`), so what is known of a restore
  without modes and times holds of it (`Plain.run` for one without a hasher).
-/

import NixStore.Store.CanonicalStamps

namespace NixStore

namespace Stamping

-- ============================================================================
-- Names
-- ============================================================================

/-- An inode is new, or had a name in the link farm that a hasher links from. -/
def Sourced (hasher : Option Bool) (fs₀ : Fs Place Object) (i : Nat) : Prop :=
  fs₀.next ≤ i ∨ hasher.isSome ∧ ∃ h, fs₀.names (.farm h) = some (.object i)

/-- What stands at or below the destination is new, or linked from the farm. -/
structure Linked (hasher : Option Bool) (fs₀ : Fs Place Object) (w : Restoring) : Prop where
  next_le : fs₀.next ≤ w.fs.next
  farm : ∀ h i, w.fs.names (.farm h) = some (.object i) →
    ∃ h, fs₀.names (.farm h) = some (.object i)
  inside : ∀ q i, w.fs.names (.inside q) = some (.object i) → Sourced hasher fs₀ i
  temp : w.pc = .rename → ∀ i, w.fs.names (dedupName w.job.key) = some (.object i) →
    Sourced hasher fs₀ i

section

variable {store : StoreDirConfig} {linkFails : NodePath → Bool} {hasher : Option Bool}
  {fs₀ : Fs Place Object} {w w' : Restoring}

theorem linked_start (hempty : ∀ q, fs₀.names (.inside q) = none) (hfs : w.fs = fs₀)
    (hpc : w.pc = .ready) : Linked hasher fs₀ w where
  next_le := by rw [hfs]
  farm h i hname := ⟨h, by rw [← hfs, hname]⟩
  inside q i hname := by
    rw [hfs, hempty] at hname
    cases hname
  temp hat := by
    rw [hpc] at hat
    cases hat

/-- The worker is not about to rename, and no name is new. -/
theorem Linked.fewer (h : Linked hasher fs₀ w) (hnext : w'.fs.next = w.fs.next)
    (hnames : ∀ k i, w'.fs.names k = some (.object i) → w.fs.names k = some (.object i))
    (hpc : w'.pc ≠ .rename) : Linked hasher fs₀ w' where
  next_le := by
    rw [hnext]
    exact h.next_le
  farm hash i hname := h.farm hash i (hnames _ _ hname)
  inside q i hname := h.inside q i (hnames _ _ hname)
  temp hat := absurd hat hpc

/-- What one step of the worker keeps. -/
theorem Linked.workerStep (hhasher : hasher.isSome) (h : Linked hasher fs₀ w) :
    Linked hasher fs₀ (w.workerStep store linkFails) := by
  have hsame : ∀ {w' : Restoring}, w'.fs = w.fs → w'.pc ≠ .rename → Linked hasher fs₀ w' := by
    intro w' hfs hpc
    exact h.fewer (by rw [hfs]) (fun k i hname => by rw [← hfs, hname]) hpc
  unfold Restoring.workerStep
  split
  · next hpc =>
      have hready : w.pc ≠ .rename := by
        rw [hpc]
        decide
      split
      · exact h
      · dsimp only
        split
        · split
          · exact hsame rfl (show WorkerPc.ready ≠ .rename by decide)
          · exact hsame rfl (show WorkerPc.lstat ≠ .rename by decide)
        · exact hsame rfl hready
  · split
    · exact hsame rfl (show WorkerPc.link ≠ .rename by decide)
    · exact hsame rfl (show WorkerPc.ready ≠ .rename by decide)
  · split
    · next fs hlink =>
        split at hlink
        · cases hlink
        obtain ⟨-, -, rfl⟩ := Fs.link_eq_some hlink
        -- the temporary name stands for an inode of the farm
        have hnames : ∀ k i, (w.fs.copyName (.farm (w.hash store)) (dedupName w.job.key)).names k
            = some (.object i) →
            (k = dedupName w.job.key ∧ ∃ h, fs₀.names (.farm h) = some (.object i)) ∨
              (k ≠ dedupName w.job.key ∧ w.fs.names k = some (.object i)) := by
          intro k i hk
          rw [Fs.names_copyName] at hk
          split at hk
          · next heq => exact Or.inl ⟨heq, h.farm _ i hk⟩
          · next hne => exact Or.inr ⟨hne, hk⟩
        refine ⟨h.next_le, fun hash i hname => ?_, fun q i hname => ?_, fun _ i hname => ?_⟩
        · rcases hnames _ _ hname with ⟨-, hold⟩ | ⟨-, hold⟩
          · exact hold
          · exact h.farm hash i hold
        · rcases hnames _ _ hname with ⟨-, hold⟩ | ⟨-, hold⟩
          · exact Or.inr ⟨hhasher, hold⟩
          · exact h.inside q i hold
        · rcases hnames _ _ hname with ⟨-, hold⟩ | ⟨hne, -⟩
          · exact Or.inr ⟨hhasher, hold⟩
          · exact absurd rfl hne
    · exact hsame rfl (show WorkerPc.ready ≠ .rename by decide)
  · next hpc =>
      split
      · next fs hrename =>
          obtain ⟨-, hfs⟩ := Fs.rename_eq_some hrename
          rcases hfs with rfl | rfl
          · exact hsame rfl (show WorkerPc.ready ≠ .rename by decide)
          · have hnames : ∀ k i, ((w.fs.copyName (dedupName w.job.key)
                (.inside w.job.key)).unlink (dedupName w.job.key)).names k = some (.object i) →
                (k = .inside w.job.key ∧ Sourced hasher fs₀ i) ∨
                  w.fs.names k = some (.object i) := by
              intro k i hk
              rw [Fs.names_unlink] at hk
              split at hk
              · cases hk
              · rw [Fs.names_copyName] at hk
                split at hk
                · next heq => exact Or.inl ⟨heq, h.temp hpc i hk⟩
                · exact Or.inr hk
            refine ⟨h.next_le, fun hash i hname => ?_, fun q i hname => ?_, fun hat => ?_⟩
            · rcases hnames _ _ hname with ⟨heq, -⟩ | hold
              · cases heq
              · exact h.farm hash i hold
            · rcases hnames _ _ hname with ⟨-, hsourced⟩ | hold
              · exact hsourced
              · exact h.inside q i hold
            · exact absurd hat (show WorkerPc.ready ≠ .rename by decide)
      · exact hsame rfl (show WorkerPc.unlink ≠ .rename by decide)
  · refine h.fewer rfl (fun k i hname => ?_) (show WorkerPc.ready ≠ .rename by decide)
    replace hname : (w.fs.unlink (dedupName w.job.key)).names k = some (.object i) := hname
    rw [Fs.names_unlink] at hname
    split at hname
    · cases hname
    · exact hname

theorem Linked.turn (hhasher : hasher.isSome) (h : Linked hasher fs₀ w) :
    Linked hasher fs₀ (w.turn store linkFails) := by
  unfold Restoring.turn
  split
  · exact h
  · exact Restoring.steps_keep (P := Linked hasher fs₀) (fun _ h => h.workerStep hhasher) _
      ⟨h.1, h.2, h.3, h.4⟩

theorem Linked.push (hhasher : hasher.isSome) (h : Linked hasher fs₀ w) (threaded : Bool)
    (ev : Ev) : Linked hasher fs₀ (w.push store linkFails threaded ev) := by
  unfold Restoring.push
  split
  · have hroom : Linked hasher fs₀ (w.awaitRoom store linkFails w.work) :=
      Restoring.awaitRoom_keep (fun _ h => h.workerStep hhasher) _ h
    exact ⟨hroom.1, hroom.2, hroom.3, hroom.4⟩
  · exact Restoring.steps_keep (P := Linked hasher fs₀) (fun _ h => h.workerStep hhasher) _
      ⟨h.1, h.2, h.3, h.4⟩

theorem Linked.pauseFor (h : Linked hasher fs₀ w) :
    Linked hasher fs₀ (w.pauseFor store linkFails hasher) := by
  unfold Restoring.pauseFor
  split
  · exact h
  · exact h.turn rfl

theorem Linked.reportFor (h : Linked hasher fs₀ w) (ev : Ev) :
    Linked hasher fs₀ (w.reportFor store linkFails hasher ev) := by
  unfold Restoring.reportFor
  split
  · exact h
  · exact h.push rfl _ ev

/-- A new name stands for a directory or for a new inode. -/
theorem Linked.named (h : Linked hasher fs₀ w) {path : NodePath} {e : Entry}
    (hnames : ∀ k, w'.fs.names k = if k = .inside path then some e else w.fs.names k)
    (hnew : ∀ i, e = .object i → fs₀.next ≤ i) (hnext : w.fs.next ≤ w'.fs.next)
    (hjob : w'.job = w.job) (hpc : w'.pc = w.pc) : Linked hasher fs₀ w' where
  next_le := h.next_le.trans hnext
  farm hash i hname := by
    rw [hnames, if_neg fun heq => (by cases heq)] at hname
    exact h.farm hash i hname
  inside q i hname := by
    rw [hnames] at hname
    split at hname
    · exact Or.inl (hnew i (Option.some.inj hname))
    · exact h.inside q i hname
  temp hat i hname := by
    rw [hpc] at hat
    rw [hjob, hnames] at hname
    split at hname
    · exact Or.inl (hnew i (Option.some.inj hname))
    · exact h.temp hat i hname

/-- A new object has been made. -/
theorem Linked.object (h : Linked hasher fs₀ w) {what : String} {path : NodePath} {x : Object}
    (hrun : w.newEntry what path (·.create (.inside path) x) = .ok w') : Linked hasher fs₀ w' := by
  obtain ⟨fs, hmake, rfl⟩ := restoring_newEntry_eq_ok hrun
  obtain ⟨-, rfl⟩ := create_eq_some hmake
  refine h.named (Fs.names_addObject _ _ _) (fun i hi => ?_) (Nat.le_succ _) rfl rfl
  cases hi
  exact h.next_le

/-- Only names matter. -/
theorem Linked.congr (h : Linked hasher fs₀ w) (hnames : w'.fs.names = w.fs.names)
    (hnext : w'.fs.next = w.fs.next) (hjob : w'.job = w.job) (hpc : w'.pc = w.pc) :
    Linked hasher fs₀ w' := by
  obtain ⟨hle, hfarm, hinside, htemp⟩ := h
  refine ⟨?_, ?_, ?_, ?_⟩
  · rw [hnext]
    exact hle
  · rw [hnames]
    exact hfarm
  · rw [hnames]
    exact hinside
  · rw [hnames, hjob, hpc]
    exact htemp

/-- What a call keeps. -/
theorem Linked.call {c : Call} (h : Linked hasher fs₀ w)
    (hrun : c.run (Restoring.sinkFor store linkFails hasher) w = .ok w') :
    Linked hasher fs₀ w' := by
  cases c with
  | createDirectory path =>
      have hentry : (w.pauseFor store linkFails hasher).newEntry "directory" path
          (·.mkdir (.inside path)) = .ok w' := hrun
      obtain ⟨fs, hmake, rfl⟩ := restoring_newEntry_eq_ok hentry
      obtain ⟨-, rfl⟩ := mkdir_eq_some hmake
      refine h.pauseFor.named (Fs.names_addDirectory _ _) (fun i hi => ?_) le_rfl rfl rfl
      cases hi
  | createSymlink path target =>
      have hentry : (w.pauseFor store linkFails hasher).newEntry "symlink" path
          (·.create (.inside path) (.symlink target)) = .ok w' := hrun
      exact h.pauseFor.object hentry
  | createRegularFile path =>
      obtain ⟨w₁, hentry, hs⟩ := bind_eq_ok.mp hrun
      cases hs
      refine Linked.reportFor (Linked.pauseFor ?_) _
      exact (h.pauseFor.object hentry).congr rfl rfl rfl rfl
  | isExecutable path =>
      cases hrun
      exact ((h.pauseFor.reportFor .exec).pauseFor).congr rfl rfl rfl rfl
  | preallocateContents path size =>
      cases hrun
      exact h.pauseFor.reportFor _
  | write path data =>
      cases hrun
      have hturn : Linked hasher fs₀ (((w.pauseFor store linkFails hasher).reportFor store linkFails
          hasher (.data data)).pauseFor store linkFails hasher) := (h.pauseFor.reportFor _).pauseFor
      obtain ⟨hnames, -, hnext, -, hjob, hpc, -⟩ := Restoring.fdWrite_keeps (w :=
        ((w.pauseFor store linkFails hasher).reportFor store linkFails hasher (.data data)).pauseFor
          store linkFails hasher) data
      exact hturn.congr hnames hnext hjob hpc
  | finishRegularFile path =>
      cases hrun
      exact ((h.pauseFor.reportFor .finish).pauseFor).congr rfl rfl rfl rfl

end

-- ============================================================================
-- Runs
-- ============================================================================

end Stamping

theorem map_eq_ok {ε α β : Type} {x : Except ε α} {f : α → β} {b : β} :
    x.map f = .ok b ↔ ∃ a, x = .ok a ∧ f a = b := by
  cases x with
  | error e => exact ⟨fun h => (by cases h), fun h => by cases h.choose_spec.1⟩
  | ok a =>
      refine ⟨fun h => ⟨a, rfl, Except.ok.inj h⟩, ?_⟩
      rintro ⟨a', ha, rfl⟩
      cases ha
      rfl

/-- The call that an event is. -/
def SinkEvent.call? : SinkEvent → Option Call
  | .call c => some c
  | .leave _ => none

theorem SinkEvent.calls_call (c : Call) (l : List SinkEvent) :
    (SinkEvent.call c :: l).filterMap call? = c :: l.filterMap call? := rfl

theorem SinkEvent.calls_leave (path : NodePath) (l : List SinkEvent) :
    (SinkEvent.leave path :: l).filterMap call? = l.filterMap call? := rfl

namespace NarNode

theorem calls_of_map (l : List Call) : (l.map SinkEvent.call).filterMap SinkEvent.call? = l := by
  induction l with
  | nil => rfl
  | cons c l ih => rw [List.map_cons, SinkEvent.calls_call, ih]

mutual

/-- The calls among the events of a node are its calls. -/
theorem calls_of_events : ∀ (path : NodePath) (x : NarNode),
    (events path x).filterMap SinkEvent.call? = calls path x
  | path, .regular executable contents pad => calls_of_map _
  | path, .directory entries => by
      rw [events, calls, SinkEvent.calls_call, List.filterMap_append,
        calls_of_eventsEntries path entries]
      exact congrArg _ (List.append_nil _)
  | path, .symlink target => rfl

theorem calls_of_eventsEntries : ∀ (path : NodePath) (es : List (Bytes × NarNode)),
    (eventsEntries path es).filterMap SinkEvent.call? = callsEntries path es
  | _, [] => rfl
  | path, (name, x) :: rest => by
      rw [eventsEntries, callsEntries, List.filterMap_append, calls_of_events (path ++ [name]) x,
        calls_of_eventsEntries path rest]

end

end NarNode

namespace Stamping

section

variable {store : StoreDirConfig} {linkFails : NodePath → Bool} {clock : Nat → Int}
  {o : RestoreOptions} {s₀ s s' : Stamping} {files : Bool → Bytes → Prop} {fs₀ : Fs Place Object}
  {w w' : Restoring}

variable (o) in
theorem finishCanonical_w (path : NodePath) : (s.finishCanonical o path).w = s.w := by
  unfold finishCanonical
  split
  · rfl
  · split <;> rfl

theorem finishCanonical_inode (path : NodePath) : (s.finishCanonical o path).inode = s.inode := by
  unfold finishCanonical
  split
  · rfl
  · split <;> rfl

theorem finishCanonical_madeExecutable (path : NodePath) :
    (s.finishCanonical o path).madeExecutable = s.madeExecutable := by
  unfold finishCanonical
  split
  · rfl
  · split <;> rfl

/-- A run makes the calls among its events. -/
theorem runEvents_w {l : List SinkEvent}
    (hrun : runEvents store linkFails clock o l s = .ok s') :
    runCalls (Restoring.sinkFor store linkFails o.hasher) (l.filterMap SinkEvent.call?) s.w
      = .ok s'.w := by
  induction l generalizing s with
  | nil =>
      cases hrun
      rfl
  | cons e l ih =>
      cases e with
      | call c =>
          obtain ⟨s₁, hcall, hrest⟩ := bind_eq_ok.mp hrun
          have hw := run_w store linkFails clock o s c
          rw [hcall] at hw
          rw [SinkEvent.calls_call, runCalls, ← hw]
          exact ih hrest
      | leave path =>
          rw [SinkEvent.calls_leave, ← finishCanonical_w o path]
          exact ih hrun

theorem Stamped.run {l : List SinkEvent} {b b' : Built}
    (hseq : SeqRun files b (l.filterMap SinkEvent.call?) b')
    (h : Stamped o s₀ b.current.isSome s)
    (hrun : runEvents store linkFails clock o l s = .ok s') :
    Stamped o s₀ b'.current.isSome s' := by
  induction l generalizing s b with
  | nil =>
      cases hrun
      cases hseq
      exact h
  | cons e l ih =>
      cases e with
      | call c =>
          obtain ⟨s₁, hcall, hrest⟩ := bind_eq_ok.mp hrun
          rw [SinkEvent.calls_call] at hseq
          cases hseq with
          | cons hstep hseq' => exact ih hseq' (h.call hstep hcall) hrest
      | leave path =>
          rw [SinkEvent.calls_leave] at hseq
          refine ih hseq ?_ hrun
          obtain ⟨hle, hold, hfinished, hwriting⟩ := h
          refine ⟨?_, ?_, ?_, ?_⟩
          · rw [finishCanonical_w]
            exact hle
          · rw [finishCanonical_w, finishCanonical_inode]
            exact hold
          · rw [finishCanonical_w, finishCanonical_inode]
            exact hfinished
          · rw [finishCanonical_w, finishCanonical_inode, finishCanonical_madeExecutable]
            exact hwriting

theorem Linked.run {hasher : Option Bool} {l : List Call} (h : Linked hasher fs₀ w)
    (hrun : runCalls (Restoring.sinkFor store linkFails hasher) l w = .ok w') :
    Linked hasher fs₀ w' := by
  induction l generalizing w with
  | nil =>
      cases hrun
      exact h
  | cons c l ih =>
      obtain ⟨w₁, hcall, hrest⟩ := bind_eq_ok.mp hrun
      exact ih (h.call hcall) hrest

-- ============================================================================
-- A restore without a hasher
-- ============================================================================

/-- The mode of the restoring thread between two calls. -/
def modeOf (b : Built) : Restoring.Mode :=
  match b.current with
  | none => .closed
  | some cur => .writing cur.path

/-- The invariant between two calls, when there is no worker. -/
def Plain (store : StoreDirConfig) (files : Bool → Bytes → Prop) (fs₀ : Fs Place Object) (b : Built)
    (w : Restoring) : Prop :=
  (w.pc = .ready ∧ w.events = []) ∧ Restoring.Inv store files fs₀ b.view (modeOf b) w

theorem Plain.not_holds {b : Built} (h : Plain store files fs₀ b w) (k : Place) : ¬ w.Holds k := by
  rintro ⟨hpc, -⟩
  rw [h.1.1] at hpc
  cases hpc

variable (linkFails) in
/-- A call in its place goes through. -/
theorem Plain.call {b b' : Built} {c : Call} (h : Plain store files fs₀ b w)
    (hstep : SeqStep files b c b') :
    ∃ w', c.run (Restoring.sinkFor store linkFails none) w = .ok w' ∧
      Plain store files fs₀ b' w' := by
  have hfree := h.not_holds
  obtain ⟨hidle, hinv⟩ := h
  cases hstep with
  | directory hroom =>
      obtain ⟨hentry, hmade⟩ := hinv.makesDirectory hroom (hfree _)
      exact ⟨_, hentry, hidle, hmade⟩
  | @symlink v path target hroom =>
      obtain ⟨hentry, hmade⟩ := hinv.makesSymlink target hroom (hfree _)
      exact ⟨_, hentry, hidle, hmade⟩
  | @regular v path hroom =>
      obtain ⟨hentry, hmade⟩ := hinv.opensFile hroom (hfree _)
      refine ⟨w.opening path, ?_, hidle, hmade⟩
      show w.newEntry "file" path _ >>= _ = _
      rw [hentry]
      rfl
  | executable hview => exact ⟨_, rfl, hidle, hinv.marks hview⟩
  | size hview => exact ⟨_, rfl, hidle, hinv⟩
  | @data v path executable contents data n hview =>
      obtain ⟨-, -, -, -, -, hpc, hevents⟩ := Restoring.fdWrite_keeps (w := w) data
      exact ⟨_, rfl, ⟨hpc.trans hidle.1, hevents.trans hidle.2⟩, hinv.writes data hview⟩
  | @finish v path executable contents hview hfile =>
      obtain ⟨hopen, hname, -⟩ := hinv.mode
      have hended : Restoring.Inv store files fs₀ v (.ending path) w :=
        ⟨hinv.next_le, hinv.old, hinv.farm, hinv.no_unlink, hinv.temp, hinv.beside, hinv.shows,
          hinv.jobs, hinv.nodup, hopen, Or.inl hname⟩
      exact ⟨_, rfl, hidle, hended.flushed⟩

/-- Calls in their places go through, with or without modes and times. -/
theorem Plain.run {l : List SinkEvent} {b b' : Built} (hplain : o.hasher = none)
    (hseq : SeqRun files b (l.filterMap SinkEvent.call?) b') (h : Plain store files fs₀ b s.w) :
    ∃ s', runEvents store linkFails clock o l s = .ok s' ∧ Plain store files fs₀ b' s'.w := by
  induction l generalizing s b with
  | nil =>
      cases hseq
      exact ⟨s, rfl, h⟩
  | cons e l ih =>
      cases e with
      | call c =>
          rw [SinkEvent.calls_call] at hseq
          cases hseq with
          | cons hstep hseq' =>
              obtain ⟨w₁, hcall, hplain₁⟩ := h.call linkFails hstep
              have hw := run_w store linkFails clock o s c
              rw [hplain, hcall] at hw
              obtain ⟨s₁, hs₁, rfl⟩ := map_eq_ok.mp hw
              obtain ⟨s', hrest, hend⟩ := ih hseq' hplain₁
              refine ⟨s', ?_, hend⟩
              rw [runEvents, hs₁]
              exact hrest
      | leave path =>
          rw [SinkEvent.calls_leave] at hseq
          refine ih hseq ?_
          rw [finishCanonical_w]
          exact h

end

end Stamping

end NixStore
