/-
  NixStore.Store.CanonicalStamps

  The inodes of a restore.  An inode is finished when its file is: nothing
  writes to it or changes its mode afterwards, and the worker only changes
  names (`Worked`, `Stamped`).  A canonical restore has stamped it by then; the
  mode that another one leaves goes with what the inode holds, so that it is
  canonicalised to the same later (`canonicalise_object`).
-/

import NixStore.Store.CanonicalRestore

namespace NixStore

-- ============================================================================
-- Modes
-- ============================================================================

/-- The mode and time that a node of the store has. -/
def Node.metadata : Node Object → Metadata
  | .directory => ⟨0o755#12, mtimeStore⟩
  | .object (.regular executable _) => ⟨if executable then 0o555#12 else 0o444#12, mtimeStore⟩
  | .object (.symlink _) => ⟨0o777#12, mtimeStore⟩

/-- A mode goes with what an inode holds. -/
def Metadata.Agrees (m : Metadata) : Object → Prop
  | .regular executable _ => m.mode &&& sIXUSR ≠ 0 ↔ executable = true
  | .symlink _ => m.mode = 0o777#12

theorem agrees_metadata (o : Object) : (Node.object o).metadata.Agrees o := by
  cases o with
  | regular executable contents =>
      cases executable with
      | false =>
          show 0o444#12 &&& sIXUSR ≠ 0 ↔ false = true
          decide
      | true =>
          show 0o555#12 &&& sIXUSR ≠ 0 ↔ true = true
          decide
  | symlink target => rfl

theorem ite_ne_self {α : Type} [DecidableEq α] (a b : α) : (if a ≠ b then b else a) = b := by
  split
  · rfl
  · next h => exact not_not.mp h

theorem canonicalise_directory (m : Metadata) :
    m.canonicalise .directory = Node.directory.metadata := by
  unfold Metadata.canonicalise
  rw [if_neg (show FileType.directory ≠ .symlink by decide), ite_ne_self, ite_ne_self]
  rfl

/-- Canonicalising makes what goes with an inode canonical. -/
theorem canonicalise_object {m : Metadata} {o : Object} (h : m.Agrees o) :
    m.canonicalise o.type = (Node.object o).metadata := by
  unfold Metadata.canonicalise
  cases o with
  | regular executable contents =>
      have hmode : canonicalMode .regular m.mode = if executable then 0o555#12 else 0o444#12 := by
        unfold canonicalMode
        rw [if_neg (show FileType.regular ≠ .directory by decide)]
        exact if_congr h rfl rfl
      rw [if_neg (show (Object.regular executable contents).type ≠ .symlink from nofun),
        ite_ne_self, ite_ne_self]
      exact congrArg (Metadata.mk · mtimeStore) hmode
  | symlink target =>
      rw [if_pos (show (Object.symlink target).type = .symlink from rfl), ite_ne_self]
      exact congrArg (Metadata.mk · mtimeStore) h

theorem and_umask_eq_zero {a b : Perms} (umask : Perms) (h : a &&& b = 0#12) :
    (a &&& ~~~umask) &&& b = 0#12 := by
  rw [BitVec.and_assoc, BitVec.and_comm (~~~umask), ← BitVec.and_assoc, h, BitVec.zero_and]

theorem and_umask_eq_self {a b umask : Perms} (h : umask &&& b = 0#12) (hab : a &&& b = a) :
    a &&& ~~~umask = a := by
  apply BitVec.eq_of_getLsbD_eq
  intro i hi
  have hmask := congrArg (BitVec.getLsbD · i) h
  have hbits := congrArg (BitVec.getLsbD · i) hab
  simp only [BitVec.getLsbD_and, BitVec.getLsbD_not, BitVec.getLsbD_zero, hi, decide_true,
    Bool.true_and] at hmask hbits ⊢
  cases ha : a.getLsbD i with
  | false => rfl
  | true =>
      rw [ha, Bool.true_and] at hbits
      rw [hbits, Bool.and_true] at hmask
      rw [hmask]
      rfl

/-- A canonical file is created with its mode if the umask allows it. -/
theorem born_mode {umask : Perms} (h : umaskPreservesCanonicalModes umask = true) :
    0o444#12 &&& ~~~umask = 0o444#12 :=
  and_umask_eq_self (of_decide_eq_true h) (by decide)

theorem marked_mode (mode : Perms) : (mode ||| 0o111#12) &&& sIXUSR ≠ 0 := by
  intro h
  have hbit := congrArg (BitVec.getLsbD · 6) h
  rw [BitVec.getLsbD_and, BitVec.getLsbD_or, show (0o111#12).getLsbD 6 = true from rfl,
    Bool.or_true] at hbit
  cases hbit

namespace Stamping

section

variable {store : StoreDirConfig} {linkFails : NodePath → Bool} {clock : Nat → Int}
  {o : RestoreOptions} {s s' : Stamping}

-- ============================================================================
-- The worker
-- ============================================================================

@[simp] theorem setInode_w (i : Nat) (m : Metadata) : (s.setInode i m).w = s.w := rfl

@[simp] theorem setDir_w (path : NodePath) (m : Metadata) : (s.setDir path m).w = s.w := rfl

@[simp] theorem stampInode_w (i : Nat) (mode : Perms) : (s.stampInode clock i mode).w = s.w := rfl

@[simp] theorem stampDir_w (path : NodePath) (mode : Perms) :
    (s.stampDir clock path mode).w = s.w := rfl

@[simp] theorem entryChanged_w (path : NodePath) : (s.entryChanged clock path).w = s.w := by
  unfold entryChanged
  split <;> rfl

@[simp] theorem workerStep_w :
    (s.workerStep store linkFails clock).w = s.w.workerStep store linkFails := by
  unfold workerStep
  dsimp only
  split
  · exact entryChanged_w _
  · rfl

@[simp] theorem steps_w (n : Nat) :
    (s.steps store linkFails clock n).w = s.w.steps store linkFails n := by
  induction n generalizing s with
  | zero => rfl
  | succ n ih => rw [steps, ih, workerStep_w, Restoring.steps]

@[simp] theorem turn_w : (s.turn store linkFails clock).w = s.w.turn store linkFails := by
  unfold turn Restoring.turn
  cases s.w.turns with
  | nil => rfl
  | cons n rest => exact steps_w n

@[simp] theorem close_w : (s.close store linkFails clock).w = s.w.close store linkFails :=
  steps_w _

@[simp] theorem awaitRoom_w (n : Nat) :
    (s.awaitRoom store linkFails clock n).w = s.w.awaitRoom store linkFails n := by
  induction n generalizing s with
  | zero => rfl
  | succ n ih =>
      unfold awaitRoom Restoring.awaitRoom
      split
      · rfl
      · rw [ih, workerStep_w]

@[simp] theorem push_w (threaded : Bool) (ev : Ev) :
    (s.push store linkFails clock threaded ev).w = s.w.push store linkFails threaded ev := by
  unfold push Restoring.push
  split
  · simp only [awaitRoom_w]
  · simp only [close_w]

/-- The worker changes names, and times of directories. -/
structure Worked (s s' : Stamping) : Prop where
  inode : s'.inode = s.inode
  madeExecutable : s'.madeExecutable = s.madeExecutable
  deferred : s'.deferred = s.deferred
  inodes : s'.w.fs.inodes = s.w.fs.inodes
  next : s'.w.fs.next = s.w.fs.next
  fd : s'.w.fd = s.w.fd
  buffer : s'.w.buffer = s.w.buffer

theorem Worked.refl (s : Stamping) : Worked s s := ⟨rfl, rfl, rfl, rfl, rfl, rfl, rfl⟩

theorem Worked.trans {s₁ s₂ s₃ : Stamping} (h : Worked s₁ s₂) (h' : Worked s₂ s₃) :
    Worked s₁ s₃ :=
  ⟨h'.inode.trans h.inode, h'.madeExecutable.trans h.madeExecutable, h'.deferred.trans h.deferred,
    h'.inodes.trans h.inodes, h'.next.trans h.next, h'.fd.trans h.fd, h'.buffer.trans h.buffer⟩

variable (clock) in
theorem worked_entryChanged (path : NodePath) : Worked s (s.entryChanged clock path) := by
  unfold entryChanged
  split
  · exact Worked.refl s
  · exact ⟨rfl, rfl, rfl, rfl, rfl, rfl, rfl⟩

variable (store linkFails) in
/-- The worker's calls leave inodes and the open file alone. -/
theorem worker_keeps (w : Restoring) :
    (w.workerStep store linkFails).fs.inodes = w.fs.inodes ∧
      (w.workerStep store linkFails).fs.next = w.fs.next ∧
      (w.workerStep store linkFails).fd = w.fd ∧
      (w.workerStep store linkFails).buffer = w.buffer := by
  unfold Restoring.workerStep
  split
  · split
    · exact ⟨rfl, rfl, rfl, rfl⟩
    · dsimp only
      split
      · split <;> exact ⟨rfl, rfl, rfl, rfl⟩
      · exact ⟨rfl, rfl, rfl, rfl⟩
  · split <;> exact ⟨rfl, rfl, rfl, rfl⟩
  · split
    · next fs hlink =>
        split at hlink
        · cases hlink
        · obtain ⟨-, -, rfl⟩ := Fs.link_eq_some hlink
          exact ⟨rfl, rfl, rfl, rfl⟩
    · exact ⟨rfl, rfl, rfl, rfl⟩
  · split
    · next fs hrename =>
        obtain ⟨-, rfl | rfl⟩ := Fs.rename_eq_some hrename
        · exact ⟨rfl, rfl, rfl, rfl⟩
        · exact ⟨rfl, rfl, rfl, rfl⟩
    · exact ⟨rfl, rfl, rfl, rfl⟩
  · exact ⟨rfl, rfl, rfl, rfl⟩

theorem worked_workerStep : Worked s (s.workerStep store linkFails clock) := by
  obtain ⟨hinodes, hnext, hfd, hbuffer⟩ := worker_keeps store linkFails s.w
  have hstep : Worked s { s with w := s.w.workerStep store linkFails } :=
    ⟨rfl, rfl, rfl, hinodes, hnext, hfd, hbuffer⟩
  unfold workerStep
  dsimp only
  split
  · exact hstep.trans (worked_entryChanged clock _)
  · exact hstep

theorem worked_steps (n : Nat) : Worked s (s.steps store linkFails clock n) := by
  induction n generalizing s with
  | zero => exact Worked.refl s
  | succ n ih => exact worked_workerStep.trans ih

theorem worked_turn : Worked s (s.turn store linkFails clock) := by
  unfold turn
  split
  · exact Worked.refl s
  · next n rest h =>
      have hturns : Worked s { s with w := { s.w with turns := rest } } :=
        ⟨rfl, rfl, rfl, rfl, rfl, rfl, rfl⟩
      exact hturns.trans (worked_steps n)

theorem worked_awaitRoom (n : Nat) : Worked s (s.awaitRoom store linkFails clock n) := by
  induction n generalizing s with
  | zero => exact Worked.refl s
  | succ n ih =>
      unfold awaitRoom
      split
      · exact Worked.refl s
      · exact worked_workerStep.trans ih

theorem worked_push (threaded : Bool) (ev : Ev) :
    Worked s (s.push store linkFails clock threaded ev) := by
  have hqueue : ∀ s : Stamping,
      Worked s { s with w := { s.w with events := s.w.events ++ [ev] } } :=
    fun s => ⟨rfl, rfl, rfl, rfl, rfl, rfl, rfl⟩
  unfold push
  split
  · exact (worked_awaitRoom _).trans (hqueue _)
  · exact (hqueue s).trans (worked_steps _)

theorem worked_pause : Worked s (s.pause store linkFails clock o) := by
  unfold pause
  split
  · exact Worked.refl s
  · exact worked_turn

theorem worked_report (ev : Ev) : Worked s (s.report store linkFails clock o ev) := by
  unfold report
  split
  · exact Worked.refl s
  · exact worked_push _ ev

variable (store linkFails clock o) in
/-- What is done between two changes of the open file. -/
theorem worked_reported (ev : Ev) :
    Worked s (((s.pause store linkFails clock o).report store linkFails clock o ev).pause store
      linkFails clock o) :=
  (worked_pause.trans (worked_report ev)).trans worked_pause

end

-- ============================================================================
-- Inodes
-- ============================================================================

/-- What goes with a file that has ended. -/
def Finished (canonical : Bool) (x : Object) (m : Metadata) : Prop :=
  m.Agrees x ∧ (canonical = true → m = (Node.object x).metadata)

/-- What goes with the open file. -/
def Unfinished (o : RestoreOptions) (madeExecutable : Bool) (x : Object) (m : Metadata) : Prop :=
  ∃ executable contents, x = .regular executable contents ∧ m.Agrees x ∧
    (o.canonical = true → madeExecutable = executable ∧
      m.mode = if executable then 0o555#12 else 0o444#12 &&& ~~~o.umask)

/-- What goes with a new inode, or with the one that was open. -/
def Fits (o : RestoreOptions) (opened madeExecutable : Bool) (x : Object) (m : Metadata) : Prop :=
  match opened with
  | true => Unfinished o madeExecutable x m
  | false => Finished o.canonical x m

section

variable {store : StoreDirConfig} {linkFails : NodePath → Bool} {clock : Nat → Int}
  {o : RestoreOptions} {s₀ s s' : Stamping}

variable (o s₀) in
/-- Old inodes are as they were, and new ones have what goes with their file. -/
structure Stamped (opened : Bool) (s : Stamping) : Prop where
  next_le : s₀.w.fs.next ≤ s.w.fs.next
  old : ∀ i, i < s₀.w.fs.next →
    s.inode i = s₀.inode i ∧ s.w.fs.inodes i = s₀.w.fs.inodes i
  finished : ∀ i, s₀.w.fs.next ≤ i → i < s.w.fs.next → (opened = true → i ≠ s.w.fd) →
    Finished o.canonical (s.w.fs.inodes i) (s.inode i)
  writing : opened = true → (s₀.w.fs.next ≤ s.w.fd ∧ s.w.fd < s.w.fs.next) ∧
    Unfinished o s.madeExecutable (s.w.fs.inodes s.w.fd) (s.inode s.w.fd)

theorem stamped_start : Stamped o s₀ false s₀ where
  next_le := le_rfl
  old _ _ := ⟨rfl, rfl⟩
  finished _ hle hlt _ := absurd hlt (Nat.not_lt.mpr hle)
  writing h := by cases h

theorem Stamped.worked {opened : Bool} (h : Stamped o s₀ opened s) (hw : Worked s s') :
    Stamped o s₀ opened s' := by
  obtain ⟨hinode, hmade, -, hinodes, hnext, hfd, -⟩ := hw
  obtain ⟨hle, hold, hfinished, hwriting⟩ := h
  refine ⟨?_, ?_, ?_, ?_⟩
  · rw [hnext]
    exact hle
  · rw [hinode, hinodes]
    exact hold
  · rw [hinode, hinodes, hnext, hfd]
    exact hfinished
  · rw [hinode, hinodes, hnext, hfd, hmade]
    exact hwriting

/-- There is one more inode: the open file, or one that is finished. -/
theorem Stamped.created (h : Stamped o s₀ false s) {opened : Bool} {x : Object} {m : Metadata}
    (hfs : s'.w.fs.next = s.w.fs.next + 1 ∧
      ∀ i, s'.w.fs.inodes i = if i = s.w.fs.next then x else s.w.fs.inodes i)
    (hinode : s'.inode = Function.update s.inode s.w.fs.next m)
    (hfd : opened = true → s'.w.fd = s.w.fs.next) (hfits : Fits o opened s'.madeExecutable x m) :
    Stamped o s₀ opened s' := by
  obtain ⟨hnext, hinodes⟩ := hfs
  have hle := h.next_le
  have hother : ∀ i, i ≠ s.w.fs.next →
      s'.inode i = s.inode i ∧ s'.w.fs.inodes i = s.w.fs.inodes i := by
    intro i hi
    rw [hinode, Function.update_of_ne hi, hinodes, if_neg hi]
    exact ⟨rfl, rfl⟩
  have hlast : Fits o opened s'.madeExecutable (s'.w.fs.inodes s.w.fs.next)
      (s'.inode s.w.fs.next) := by
    rw [hinode, Function.update_self, hinodes, if_pos rfl]
    exact hfits
  refine ⟨by omega, fun i hi => ?_, fun i hge hlt hne => ?_, fun hopen => ?_⟩
  · obtain ⟨hstat, hobject⟩ := hother i (by omega)
    rw [hstat, hobject]
    exact h.old i hi
  · by_cases hi : i = s.w.fs.next
    · subst hi
      cases opened with
      | false => exact hlast
      | true => exact absurd (hfd rfl).symm (hne rfl)
    · obtain ⟨hstat, hobject⟩ := hother i hi
      rw [hstat, hobject]
      exact h.finished i hge (by omega) fun hopen => by cases hopen
  · subst hopen
    rw [hfd rfl]
    exact ⟨by omega, hlast⟩

/-- The open file is changed, or closed. -/
theorem Stamped.changed (h : Stamped o s₀ true s) {opened : Bool} {x : Object} {m : Metadata}
    (hfs : s'.w.fs.next = s.w.fs.next ∧ s'.w.fd = s.w.fd ∧
      ∀ i, s'.w.fs.inodes i = if i = s.w.fd then x else s.w.fs.inodes i)
    (hinode : s'.inode = Function.update s.inode s.w.fd m)
    (hfits : Fits o opened s'.madeExecutable x m) : Stamped o s₀ opened s' := by
  obtain ⟨hnext, hfd, hinodes⟩ := hfs
  obtain ⟨hrange, -⟩ := h.writing rfl
  have hother : ∀ i, i ≠ s.w.fd →
      s'.inode i = s.inode i ∧ s'.w.fs.inodes i = s.w.fs.inodes i := by
    intro i hi
    rw [hinode, Function.update_of_ne hi, hinodes, if_neg hi]
    exact ⟨rfl, rfl⟩
  have hfile : Fits o opened s'.madeExecutable (s'.w.fs.inodes s.w.fd) (s'.inode s.w.fd) := by
    rw [hinode, Function.update_self, hinodes, if_pos rfl]
    exact hfits
  refine ⟨?_, fun i hi => ?_, fun i hge hlt hne => ?_, fun hopen => ?_⟩
  · rw [hnext]
    exact h.next_le
  · obtain ⟨hstat, hobject⟩ := hother i (by omega)
    rw [hstat, hobject]
    exact h.old i hi
  · by_cases hi : i = s.w.fd
    · subst hi
      cases opened with
      | false => exact hfile
      | true => exact absurd hfd.symm (hne rfl)
    · obtain ⟨hstat, hobject⟩ := hother i hi
      rw [hstat, hobject]
      exact h.finished i hge (by rw [← hnext]; exact hlt) fun _ => hi
  · subst hopen
    rw [hfd, hnext]
    exact ⟨hrange, hfile⟩

/-- A name is new where it is created. -/
theorem restoring_newEntry_eq_ok {what : String} {path : NodePath}
    {make : Fs Place Object → Option (Fs Place Object)} {w w' : Restoring}
    (h : w.newEntry what path make = .ok w') : ∃ fs, make w.fs = some fs ∧ w' = { w with fs } := by
  unfold Restoring.newEntry throwIf at h
  split at h
  · cases h
  · rw [ok_bind] at h
    split at h
    · next fs hmake => exact ⟨fs, hmake, (Except.ok.inj h).symm⟩
    · cases h

theorem newEntry_eq_ok {what : String} {path : NodePath}
    {make : Fs Place Object → Option (Fs Place Object)}
    (h : s.newEntry clock what path make = .ok s') :
    ∃ fs, make s.w.fs = some fs ∧
      s' = ({ s with w := { s.w with fs } } : Stamping).entryChanged clock path := by
  obtain ⟨w, hw, hs⟩ := bind_eq_ok.mp h
  obtain ⟨fs, hmake, rfl⟩ := restoring_newEntry_eq_ok hw
  exact ⟨fs, hmake, (Except.ok.inj hs).symm⟩

theorem mkdir_eq_some {κ α : Type} [DecidableEq κ] {fs fs' : Fs κ α} {k : κ}
    (h : fs.mkdir k = some fs') : fs.names k = none ∧ fs' = fs.addDirectory k := by
  unfold Fs.mkdir at h
  split at h
  · next hnone => exact ⟨hnone, (Option.some.inj h).symm⟩
  · cases h

theorem create_eq_some {κ α : Type} [DecidableEq κ] {fs fs' : Fs κ α} {k : κ} {a : α}
    (h : fs.create k a = some fs') : fs.names k = none ∧ fs' = fs.addObject k a := by
  unfold Fs.create at h
  split at h
  · next hnone => exact ⟨hnone, (Option.some.inj h).symm⟩
  · cases h

/-- A directory has been made. -/
theorem createDirectory_eq_ok {path : NodePath}
    (h : (restoreSink store linkFails clock o).createDirectory path s = .ok s') :
    ∃ s₁, Worked s s₁ ∧ s₁ = s.pause store linkFails clock o ∧
      s₁.w.fs.names (.inside path) = none ∧
      s' = (({ s₁ with w := { s₁.w with fs := s₁.w.fs.addDirectory (.inside path) } } :
        Stamping).entryChanged clock path).stampDir clock path (0o777#12 &&& ~~~o.umask) := by
  obtain ⟨s₂, hentry, hs⟩ := bind_eq_ok.mp h
  obtain ⟨fs, hmake, rfl⟩ := newEntry_eq_ok hentry
  obtain ⟨hnone, rfl⟩ := mkdir_eq_some hmake
  exact ⟨_, worked_pause, rfl, hnone, (Except.ok.inj hs).symm⟩

theorem worked_directory {path : NodePath}
    (h : (restoreSink store linkFails clock o).createDirectory path s = .ok s') : Worked s s' := by
  obtain ⟨s₁, hturn, -, -, rfl⟩ := createDirectory_eq_ok h
  have hadd : Worked s₁ { s₁ with w := { s₁.w with
      fs := s₁.w.fs.addDirectory (.inside path) } } := ⟨rfl, rfl, rfl, rfl, rfl, rfl, rfl⟩
  have hchanged := hadd.trans (worked_entryChanged clock path)
  exact hturn.trans (hchanged.trans ⟨rfl, rfl, rfl, rfl, rfl, rfl, rfl⟩)

/-- A new object has been made in a directory. -/
theorem worked_newEntry {what : String} {path : NodePath} {x : Object}
    (h : s.newEntry clock what path (·.create (.inside path) x) = .ok s') :
    s'.w = { s.w with fs := s.w.fs.addObject (.inside path) x } ∧ s'.inode = s.inode := by
  obtain ⟨fs, hmake, rfl⟩ := newEntry_eq_ok h
  obtain ⟨-, rfl⟩ := create_eq_some hmake
  exact ⟨entryChanged_w path, (worked_entryChanged clock path).inode⟩

theorem Stamped.symlink (h : Stamped o s₀ false s) {path : NodePath} {target : Bytes}
    (hrun : (restoreSink store linkFails clock o).createSymlink path target s = .ok s') :
    Stamped o s₀ false s' := by
  obtain ⟨s₁, hentry, hs⟩ := bind_eq_ok.mp hrun
  obtain ⟨hw, hinode⟩ := worked_newEntry hentry
  have hturn : Stamped o s₀ false (s.pause store linkFails clock o) := h.worked worked_pause
  generalize s.pause store linkFails clock o = s at hturn hs hw hinode
  have hs' : s'.w = s₁.w ∧ ∃ t, s'.inode = Function.update s.inode s.w.fs.next ⟨0o777#12, t⟩ ∧
      (o.canonical = true → t = mtimeStore) := by
    cases hs
    split
    · refine ⟨rfl, mtimeStore, ?_, fun _ => rfl⟩
      rw [← hinode]
      exact Function.update_idem _ _ _
    · next hno =>
        refine ⟨rfl, clock s₁.ticks, ?_, fun hyes => absurd hyes hno⟩
        rw [← hinode]
        rfl
  obtain ⟨hsame, t, hstat, ht⟩ := hs'
  refine hturn.created (x := .symlink target) (m := ⟨0o777#12, t⟩) ?_ hstat (fun h => by cases h)
    ⟨rfl, fun hcanonical => ?_⟩
  · rw [hsame, hw]
    exact ⟨rfl, Fs.inodes_addObject _ _ _⟩
  · rw [ht hcanonical]
    rfl

/-- A regular file has been made, and is open. -/
theorem Stamped.regular (h : Stamped o s₀ false s) {path : NodePath}
    (hrun : (restoreSink store linkFails clock o).createRegularFile path s = .ok s') :
    Stamped o s₀ true s' := by
  obtain ⟨s₁, hentry, hs⟩ := bind_eq_ok.mp hrun
  obtain ⟨hw, hinode⟩ := worked_newEntry hentry
  cases hs
  refine Stamped.worked ?_ (worked_pause.trans (worked_report _))
  have hturn : Stamped o s₀ false (s.pause store linkFails clock o) := h.worked worked_pause
  generalize s.pause store linkFails clock o = s at hturn hw hinode ⊢
  refine hturn.created (x := .regular false [])
    (m := ⟨(if o.canonical then 0o444#12 else 0o666#12) &&& ~~~o.umask, clock s₁.ticks⟩) ?_ ?_
    (fun _ => rfl) ⟨false, [], rfl, ?_, fun hcanonical => ⟨rfl, ?_⟩⟩
  · simp only [stampInode_w, hw]
    exact ⟨rfl, Fs.inodes_addObject _ _ _⟩
  · rw [← hinode]
    rfl
  · refine iff_of_false (not_not.mpr (and_umask_eq_zero o.umask ?_)) Bool.false_ne_true
    split <;> decide
  · rw [hcanonical]
    rfl

/-- The open file has been marked executable. -/
theorem Stamped.executable (h : Stamped o s₀ true s) {path : NodePath}
    (hrun : (restoreSink store linkFails clock o).isExecutable path s = .ok s') :
    Stamped o s₀ true s' := by
  cases hrun
  have hturn := h.worked (worked_reported store linkFails clock o .exec)
  generalize ((s.pause store linkFails clock o).report store linkFails clock o .exec).pause store
    linkFails clock o = s at hturn ⊢
  obtain ⟨-, executable, contents, hobject, -⟩ := hturn.writing rfl
  have hinodes : ∀ i, (s.w.fs.modify s.w.fd Restoring.markExecutable).inodes i
      = if i = s.w.fd then .regular true contents else s.w.fs.inodes i := by
    intro i
    rw [Fs.inodes_modify, hobject]
    rfl
  by_cases hcanonical : o.canonical = true
  · rw [if_pos hcanonical]
    refine hturn.changed ⟨rfl, rfl, hinodes⟩ rfl ⟨true, contents, rfl, ?_, fun _ => ⟨rfl, rfl⟩⟩
    show 0o555#12 &&& sIXUSR ≠ 0 ↔ true = true
    decide
  · rw [if_neg hcanonical]
    refine hturn.changed ⟨rfl, rfl, hinodes⟩ rfl ⟨true, contents, rfl, ?_, fun hyes => ?_⟩
    · exact iff_of_true (marked_mode _) rfl
    · exact absurd hyes hcanonical

/-- Something has been written to the open file, or is in its buffer. -/
theorem Stamped.data (h : Stamped o s₀ true s) {path : NodePath} {data : Bytes}
    (hrun : (restoreSink store linkFails clock o).write path data s = .ok s') :
    Stamped o s₀ true s' := by
  cases hrun
  have hturn := h.worked (worked_reported store linkFails clock o (.data data))
  generalize ((s.pause store linkFails clock o).report store linkFails clock o (.data data)).pause
    store linkFails clock o = s at hturn ⊢
  obtain ⟨-, executable, contents, hobject, hagrees, hmode⟩ := hturn.writing rfl
  obtain ⟨-, hkept, hnext, hfd, -⟩ := Restoring.fdWrite_keeps (w := s.w) data
  obtain ⟨contents', hwritten, -⟩ := Restoring.fdWrite_contents data hobject
  have hinodes : ∀ i, (s.w.fdWrite data).fs.inodes i
      = if i = s.w.fd then .regular executable contents' else s.w.fs.inodes i := by
    intro i
    split
    · next hi => rw [hi, hwritten]
    · next hi => exact hkept i hi
  rw [hobject] at hagrees
  split
  · exact hturn.changed ⟨hnext, hfd, hinodes⟩ rfl ⟨executable, contents', rfl, hagrees, hmode⟩
  · refine hturn.changed ⟨hnext, hfd, hinodes⟩ (m := s.inode s.w.fd) ?_
      ⟨executable, contents', rfl, hagrees, hmode⟩
    rw [Function.update_eq_self]

/-- The file has ended. -/
theorem Stamped.finish (h : Stamped o s₀ true s) {path : NodePath}
    (hrun : (restoreSink store linkFails clock o).finishRegularFile path s = .ok s') :
    Stamped o s₀ false s' := by
  cases hrun
  have hturn := h.worked (worked_reported store linkFails clock o .finish)
  generalize ((s.pause store linkFails clock o).report store linkFails clock o .finish).pause
    store linkFails clock o = s at hturn ⊢
  obtain ⟨-, executable, contents, hobject, hagrees, hmode⟩ := hturn.writing rfl
  have hinodes : ∀ i, s.w.flush.fs.inodes i
      = if i = s.w.fd then .regular executable (contents ++ s.w.buffer) else s.w.fs.inodes i := by
    intro i
    show (s.w.fs.modify s.w.fd _).inodes i = _
    rw [Fs.inodes_modify, hobject]
    rfl
  rw [hobject] at hagrees
  generalize hflushed : (if s.w.buffer = [] then _ else _ : Stamping) = flushed
  have hw : flushed.w = s.w.flush := by
    rw [← hflushed]
    split <;> rfl
  have hwritten : ∃ t, flushed.inode
      = Function.update s.inode s.w.fd ⟨(s.inode s.w.fd).mode, t⟩ := by
    rw [← hflushed]
    split
    · exact ⟨(s.inode s.w.fd).mtime, (Function.update_eq_self _ _).symm⟩
    · exact ⟨clock s.ticks, rfl⟩
  obtain ⟨t, hinode⟩ := hwritten
  by_cases hcanonical : o.canonical = true
  · obtain ⟨hmade, hborn⟩ := hmode hcanonical
    -- the mode is right from the beginning, or since the file was marked, or now
    have hstat : (if ¬ umaskPreservesCanonicalModes o.umask ∧ ¬ s.madeExecutable then 0o444#12
        else (s.inode s.w.fd).mode) = if executable then 0o555#12 else 0o444#12 := by
      rw [hborn, hmade]
      cases executable with
      | true => exact if_neg fun hboth => hboth.2 rfl
      | false =>
          split
          · rfl
          · next hno =>
              exact born_mode (not_not.mp fun hmask => hno ⟨hmask, Bool.false_ne_true⟩)
    rw [if_pos hcanonical, hstat]
    refine hturn.changed (x := .regular executable (contents ++ s.w.buffer))
      (m := (Node.object (.regular executable (contents ++ s.w.buffer))).metadata) ?_ ?_
      ⟨agrees_metadata _, fun _ => rfl⟩
    · rw [setInode_w, hw]
      exact ⟨rfl, rfl, hinodes⟩
    · show Function.update flushed.inode _ _ = _
      rw [hinode, Function.update_idem]
      rfl
  · rw [if_neg hcanonical]
    refine hturn.changed (x := .regular executable (contents ++ s.w.buffer)) ?_ hinode
      ⟨hagrees, fun hyes => absurd hyes hcanonical⟩
    rw [hw]
    exact ⟨rfl, rfl, hinodes⟩

/-- What a call in its place keeps. -/
theorem Stamped.call {files : Bool → Bytes → Prop} {b b' : Built} {c : Call}
    (hstep : SeqStep files b c b') (h : Stamped o s₀ b.current.isSome s)
    (hrun : c.run (restoreSink store linkFails clock o) s = .ok s') :
    Stamped o s₀ b'.current.isSome s' := by
  cases hstep with
  | directory _ => exact h.worked (worked_directory hrun)
  | symlink _ => exact h.symlink hrun
  | regular _ => exact h.regular hrun
  | executable _ => exact h.executable hrun
  | size _ =>
      cases hrun
      exact h.worked (worked_pause.trans (worked_report _))
  | data _ => exact h.data hrun
  | finish _ _ => exact h.finish hrun

end

-- ============================================================================
-- The calls without modes and times
-- ============================================================================

section

variable {store : StoreDirConfig} {linkFails : NodePath → Bool} {clock : Nat → Int}
  {o : RestoreOptions} {s s' : Stamping}

@[simp] theorem pause_w : (s.pause store linkFails clock o).w
    = s.w.pauseFor store linkFails o.hasher := by
  unfold Stamping.pause Restoring.pauseFor
  split
  · rfl
  · exact turn_w

@[simp] theorem report_w (ev : Ev) : (s.report store linkFails clock o ev).w
    = s.w.reportFor store linkFails o.hasher ev := by
  unfold Stamping.report Restoring.reportFor
  split
  · rfl
  · exact push_w _ _

variable (clock s) in
theorem newEntry_w (what : String) (path : NodePath)
    (make : Fs Place Object → Option (Fs Place Object)) :
    (s.newEntry clock what path make).map Stamping.w = s.w.newEntry what path make := by
  unfold Stamping.newEntry
  cases s.w.newEntry what path make with
  | error e => rfl
  | ok w => exact congrArg Except.ok (entryChanged_w path)

variable (store linkFails clock o s) in
/-- Modes and times do not matter to names and contents. -/
theorem run_w (c : Call) : (c.run (restoreSink store linkFails clock o) s).map Stamping.w
    = c.run (Restoring.sinkFor store linkFails o.hasher) s.w := by
  cases c with
  | createDirectory path =>
      have hmade := newEntry_w clock (s.pause store linkFails clock o) "directory" path
        (·.mkdir (.inside path))
      rw [pause_w] at hmade
      show (Stamping.newEntry clock "directory" path _ _ >>= _).map _ =
        (s.w.pauseFor store linkFails o.hasher).newEntry "directory" path (·.mkdir (.inside path))
      rw [← hmade]
      cases (s.pause store linkFails clock o).newEntry clock "directory" path
        (·.mkdir (.inside path)) <;> rfl
  | createSymlink path target =>
      have hmade := newEntry_w clock (s.pause store linkFails clock o) "symlink" path
        (·.create (.inside path) (.symlink target))
      rw [pause_w] at hmade
      show (Stamping.newEntry clock "symlink" path _ _ >>= _).map _ =
        (s.w.pauseFor store linkFails o.hasher).newEntry "symlink" path
          (·.create (.inside path) (.symlink target))
      rw [← hmade]
      cases (s.pause store linkFails clock o).newEntry clock "symlink" path
        (·.create (.inside path) (.symlink target)) with
      | error e => rfl
      | ok s₁ =>
          refine congrArg Except.ok ?_
          split <;> rfl
  | createRegularFile path =>
      have hmade := newEntry_w clock (s.pause store linkFails clock o) "file" path
        (·.create (.inside path) (.regular false []))
      rw [pause_w] at hmade
      show (Stamping.newEntry clock "file" path _ _ >>= _).map _ = Restoring.newEntry _ _ _ _ >>= _
      rw [← hmade]
      cases (s.pause store linkFails clock o).newEntry clock "file" path
        (·.create (.inside path) (.regular false [])) with
      | error e => rfl
      | ok s₁ =>
          refine congrArg Except.ok ?_
          simp only [report_w, pause_w, stampInode_w]
  | isExecutable path =>
      refine congrArg Except.ok ?_
      split <;> simp only [setInode_w, report_w, pause_w]
  | preallocateContents path size =>
      refine congrArg Except.ok ?_
      simp only [report_w, pause_w]
  | write path data =>
      refine congrArg Except.ok ?_
      split <;> simp only [stampInode_w, report_w, pause_w]
  | finishRegularFile path =>
      refine congrArg Except.ok ?_
      split
      · rw [setInode_w]
        split <;> simp only [stampInode_w, report_w, pause_w]
      · split <;> simp only [stampInode_w, report_w, pause_w]

end

end Stamping

end NixStore
