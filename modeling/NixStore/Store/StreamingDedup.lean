/-
  NixStore.Store.StreamingDedup

  Streaming dedup leaves the tree that a plain restore leaves, whatever the
  worker's lag, unless the archive has an entry with the name of the worker's
  temporary link at the moment the link is there
  (`restorePathCapturingHashes_transparent_iff`).

  `Inv` relates the directory to what the calls made so far build: every name
  shows what it should, except the temporary link, and except the file that is
  open, which lacks what is still buffered.  The worker only ever replaces
  files that have ended (`pending`), and those have inodes of their own.
-/

import NixStore.Store.AddFromDump
import NixStore.Store.AsyncFileHasher

namespace NixStore

namespace Restoring

-- ============================================================================
-- What the worker has before it
-- ============================================================================

/-- The job after some events. -/
def tailFrom (j : Job) (evs : List Ev) : Job := evs.foldl Job.absorb j

/-- The files that end among some events. -/
def endsAmong : Job → List Ev → List Job
  | _, [] => []
  | j, ev :: rest =>
      (if ev = .finish then [j.absorb ev] else []) ++ endsAmong (j.absorb ev) rest

/-- The files that have ended and that the worker has not recorded. -/
def pending (w : Restoring) : List Job :=
  (if w.pc = .ready then [] else [w.job]) ++ endsAmong w.job w.events

/-- What the worker's job will be after all events. -/
def tail (w : Restoring) : Job := tailFrom w.job w.events

theorem endsAmong_snoc (j : Job) (evs : List Ev) (ev : Ev) :
    endsAmong j (evs ++ [ev]) = endsAmong j evs ++
      (if ev = .finish then [(tailFrom j evs).absorb ev] else []) := by
  induction evs generalizing j with
  | nil => simp only [List.nil_append, endsAmong, tailFrom, List.foldl_nil, List.append_nil]
  | cons e evs ih =>
      rw [List.cons_append, endsAmong, endsAmong, ih, List.append_assoc]
      rfl

theorem tailFrom_snoc (j : Job) (evs : List Ev) (ev : Ev) :
    tailFrom j (evs ++ [ev]) = (tailFrom j evs).absorb ev := by
  rw [tailFrom, List.foldl_append]
  rfl

/-- The worker has linked a farm entry to this name and not yet renamed it. -/
def Holds (w : Restoring) (k : Place) : Prop := w.pc = .rename ∧ dedupName w.job.key = k

-- ============================================================================
-- Invariant
-- ============================================================================

/-- The archive of a single file, as `hashPath` makes it. -/
def fileNar (executable : Bool) (contents : Bytes) : Bytes :=
  writeString narVersionMagic1 ++ tag "(" ++ tag "type" ++ tag "regular" ++
    (if executable then tag "executable" ++ tag "" else []) ++
    tag "contents" ++ writeNum contents.length ++ contents ++ writePadding contents.length ++ tag ")"

/-- What the restoring thread is doing with a file: nothing, writing it, or
    flushing it after its end has been reported. -/
inductive Mode where
  | closed
  | writing (path : NodePath)
  | ending (path : NodePath)

/-- The file that is open. -/
def Mode.opens : Mode → Option NodePath
  | .closed => none
  | .writing path => some path
  | .ending path => some path

section

variable (store : StoreDirConfig) (files : Bool → Bytes → Prop) (fs₀ : Fs Place Object)

/-- A file that has ended: its hash is that of the file, and it has an inode of
    its own. -/
structure Ended (v : View) (w : Restoring) (j : Job) : Prop where
  hashes : ∃ executable contents, v j.key = some (.object (.regular executable contents)) ∧
    files executable contents ∧ j.hashed = fileNar executable contents ∧ j.size = contents.length
  fresh : ∃ i, w.fs.names (.inside j.key) = some (.object i) ∧ fs₀.next ≤ i

/-- The open file: its inode lacks what is buffered, and no other name stands
    for it. -/
structure Open (v : View) (w : Restoring) (path : NodePath) : Prop where
  lacks : ∃ executable contents written, v path = some (.object (.regular executable contents)) ∧
    w.fs.inodes w.fd = .regular executable written ∧ contents = written ++ w.buffer
  new : fs₀.next ≤ w.fd
  alone : ∀ k, w.fs.names k = some (.object w.fd) → k = .inside path

/-- What holds of the open file. -/
def Mode.Ok (v : View) (w : Restoring) : Mode → Prop
  | .closed => True
  | .writing path => Open fs₀ v w path ∧ w.fs.names (.inside path) = some (.object w.fd) ∧
      path ∉ w.pending.map Job.key
  | .ending path => Open fs₀ v w path ∧
      (w.fs.names (.inside path) = some (.object w.fd) ∨ w.fs.read (.inside path) = v path)

/-- Nothing should be at the worker's temporary name. -/
def Free (v : View) : Place → Prop
  | .inside q => v q = none
  | .beside => fs₀.names .beside = none
  | .farm _ => False

/-- The directory shows what the calls have built. -/
structure Inv (v : View) (m : Mode) (w : Restoring) : Prop where
  next_le : fs₀.next ≤ w.fs.next
  old : ∀ i, i < fs₀.next → w.fs.inodes i = fs₀.inodes i
  farm : ∀ h, w.fs.names (.farm h) = fs₀.names (.farm h)
  no_unlink : w.pc ≠ .unlink
  temp : w.pc = .rename → Free fs₀ v (dedupName w.job.key) ∧
    ∃ i, fs₀.names (.farm (w.hash store)) = some (.object i) ∧
      w.fs.names (dedupName w.job.key) = some (.object i)
  beside : ¬ w.Holds .beside → w.fs.names .beside = fs₀.names .beside
  shows : ∀ q, m.opens ≠ some q → ¬ w.Holds (.inside q) → w.fs.read (.inside q) = v q
  jobs : ∀ j ∈ w.pending, Ended files fs₀ v w j
  nodup : (w.pending.map Job.key).Nodup
  mode : m.Ok fs₀ v w

/-- The farm holds no other file under the hash of one of these files. -/
def FarmAgrees : Prop :=
  ∀ executable contents i, files executable contents →
    fs₀.names (.farm (store.hashString .sha256 (fileNar executable contents)).1)
      = some (.object i) →
    fs₀.inodes i = .regular executable contents

end

-- ============================================================================
-- Steps of the worker
-- ============================================================================

section Steps

variable {store : StoreDirConfig} {linkFails : NodePath → Bool} {files : Bool → Bytes → Prop}
  {fs₀ : Fs Place Object} {v : View} {m : Mode} {w w' : Restoring}

/-- A step that touches neither the directory nor the open file, and ends no
    file. -/
theorem Inv.quiet (h : Inv store files fs₀ v m w) (hfs : w'.fs = w.fs) (hfd : w'.fd = w.fd)
    (hbuffer : w'.buffer = w.buffer) (hpc : w.pc ≠ .rename) (hrename : w'.pc ≠ .rename)
    (hunlink : w'.pc ≠ .unlink) (hpending : w'.pending.Sublist w.pending) :
    Inv store files fs₀ v m w' where
  next_le := by
    rw [hfs]
    exact h.next_le
  old := by
    rw [hfs]
    exact h.old
  farm := by
    rw [hfs]
    exact h.farm
  no_unlink := hunlink
  temp := fun hat => absurd hat hrename
  beside := by
    intro _
    rw [hfs]
    exact h.beside fun hholds => hpc hholds.1
  shows := by
    intro q hq _
    rw [hfs]
    exact h.shows q hq fun hholds => hpc hholds.1
  jobs := by
    intro j hj
    obtain ⟨hhashes, hfresh⟩ := h.jobs j (hpending.subset hj)
    rw [← hfs] at hfresh
    exact ⟨hhashes, hfresh⟩
  nodup := (hpending.map Job.key).nodup h.nodup
  mode := by
    have hmode := h.mode
    have hopen : ∀ path, Open fs₀ v w path → Open fs₀ v w' path := by
      rintro path ⟨hlacks, hnew, halone⟩
      rw [← hfs, ← hfd, ← hbuffer] at hlacks
      rw [← hfd] at hnew
      rw [← hfs, ← hfd] at halone
      exact ⟨hlacks, hnew, halone⟩
    cases m with
    | closed => trivial
    | writing path =>
        obtain ⟨hwritten, hname, hkeys⟩ := hmode
        rw [← hfs, ← hfd] at hname
        exact ⟨hopen path hwritten, hname, fun hin => hkeys ((hpending.map Job.key).subset hin)⟩
    | ending path =>
        obtain ⟨hwritten, hname⟩ := hmode
        rw [← hfs, ← hfd] at hname
        exact ⟨hopen path hwritten, hname⟩

/-- Nothing is at a free place that no temporary link holds. -/
theorem Inv.free_of_none (h : Inv store files fs₀ v m w) (hpc : w.pc ≠ .rename) {key : NodePath}
    (hnone : w.fs.names (dedupName key) = none) : Free fs₀ v (dedupName key) := by
  cases hplace : dedupName key with
  | farm hash =>
      unfold dedupName at hplace
      split at hplace <;> cases hplace
  | beside =>
      show fs₀.names .beside = none
      rw [← h.beside fun hholds => hpc hholds.1, ← hplace]
      exact hnone
  | inside q =>
      show v q = none
      rw [hplace] at hnone
      have hread : w.fs.read (.inside q) = none := by rw [Fs.read, hnone]
      by_cases hq : m.opens = some q
      · -- the open file has a name
        have hmode := h.mode
        cases m with
        | closed => cases hq
        | writing path =>
            cases hq
            rw [hmode.2.1] at hnone
            cases hnone
        | ending path =>
            cases hq
            rcases hmode.2 with hname | hsame
            · rw [hname] at hnone
              cases hnone
            · rw [← hsame, hread]
      · rw [← h.shows q hq fun hholds => hpc hholds.1, hread]

/-- A name that a file has is not the worker's temporary one. -/
theorem Free.ne {key q : NodePath} {n : Node Object} (hfree : Free fs₀ v (dedupName key))
    (hq : v q = some n) : dedupName key ≠ .inside q := by
  intro heq
  rw [heq] at hfree
  rw [show v q = none from hfree] at hq
  cases hq

/-- A place stays free when something else is set. -/
theorem Free.set {k : Place} {path : NodePath} (n : Node Object) (hfree : Free fs₀ v k)
    (hne : k ≠ .inside path) : Free fs₀ (v.set path n) k := by
  cases k with
  | farm hash => exact hfree
  | beside => exact hfree
  | inside q =>
      show v.set path n q = none
      rw [View.set_of_ne v n fun heq => hne (by rw [heq])]
      exact hfree

/-- The worker links a farm entry to its temporary name. -/
theorem Inv.linked (h : Inv store files fs₀ v m w) (hpc : w.pc ≠ .rename)
    (hobject : w.fs.isObject (.farm (w.hash store)) = true)
    (hnone : w.fs.names (dedupName w.job.key) = none)
    (hfs : w'.fs = w.fs.copyName (.farm (w.hash store)) (dedupName w.job.key))
    (hfd : w'.fd = w.fd) (hbuffer : w'.buffer = w.buffer) (hjob : w'.job = w.job)
    (hpc' : w'.pc = .rename) (hpending : w'.pending = w.pending) :
    Inv store files fs₀ v m w' := by
  obtain ⟨i, hi⟩ := Fs.isObject_iff.mp hobject
  have hfree := h.free_of_none hpc hnone
  have hfarm : fs₀.names (.farm (w.hash store)) = some (.object i) := by
    rw [← h.farm, hi]
  have hold : i < fs₀.next := fs₀.allocated _ _ hfarm
  -- every other name stays
  have hnames : ∀ k, k ≠ dedupName w.job.key → w'.fs.names k = w.fs.names k := by
    intro k hk
    rw [hfs, Fs.names_copyName, if_neg hk]
  have hnew : w'.fs.names (dedupName w.job.key) = some (.object i) := by
    rw [hfs, Fs.names_copyName, if_pos rfl, hi]
  have hinodes : w'.fs.inodes = w.fs.inodes := by rw [hfs, Fs.inodes_copyName]
  have hreads : ∀ k, k ≠ dedupName w.job.key → w'.fs.read k = w.fs.read k := by
    intro k hk
    rw [Fs.read, Fs.read, hnames k hk, hinodes]
  have hsome : ∀ {k : Place} {e : Entry}, w.fs.names k = some e → k ≠ dedupName w.job.key := by
    rintro k e hk rfl
    rw [hnone] at hk
    cases hk
  have hholds : ∀ k, w'.Holds k ↔ dedupName w.job.key = k := by
    intro k
    rw [Holds, hpc', hjob]
    exact and_iff_right rfl
  have hopen : ∀ path, Open fs₀ v w path → Open fs₀ v w' path := by
    rintro path ⟨hlacks, hfresh, halone⟩
    rw [← hinodes, ← hfd, ← hbuffer] at hlacks
    rw [← hfd] at hfresh halone
    refine ⟨hlacks, hfresh, fun k hk => halone k ?_⟩
    by_cases heq : k = dedupName w.job.key
    · rw [heq, hnew] at hk
      cases hk
      exact absurd hold (Nat.not_lt.mpr hfresh)
    · rw [← hnames k heq]
      exact hk
  refine ⟨?_, ?_, ?_, ?_, ?_, ?_, ?_, ?_, ?_, ?_⟩
  · rw [hfs]
    exact h.next_le
  · rw [hinodes]
    exact h.old
  · intro hash
    rw [← h.farm]
    refine hnames _ fun heq => ?_
    rw [← heq] at hfree
    exact hfree
  · rw [hpc']
    decide
  · intro _
    rw [hash, hjob]
    exact ⟨hfree, i, hfarm, hnew⟩
  · intro hno
    rw [hholds] at hno
    rw [← h.beside fun hat => hpc hat.1]
    exact hnames _ (Ne.symm hno)
  · intro q hq hno
    rw [hholds] at hno
    rw [← h.shows q hq fun hat => hpc hat.1]
    exact hreads _ (Ne.symm hno)
  · intro j hj
    rw [hpending] at hj
    obtain ⟨hhashes, k, hname, hfresh⟩ := h.jobs j hj
    exact ⟨hhashes, k, (hnames _ (hsome hname)).trans hname, hfresh⟩
  · rw [hpending]
    exact h.nodup
  · have hmode := h.mode
    cases m with
    | closed => trivial
    | writing path =>
        obtain ⟨hwritten, hname, hkeys⟩ := hmode
        refine ⟨hopen path hwritten, ?_, ?_⟩
        · rw [hnames _ (hsome hname), hfd]
          exact hname
        · rw [hpending]
          exact hkeys
    | ending path =>
        obtain ⟨hwritten, hname⟩ := hmode
        obtain ⟨executable, contents, -, hview, -⟩ := hwritten.lacks
        have hne : Place.inside path ≠ dedupName w.job.key := (hfree.ne hview).symm
        refine ⟨hopen path hwritten, ?_⟩
        rw [hnames _ hne, hreads _ hne, hfd]
        exact hname

/-- The worker renames its link over the file. -/
theorem Inv.renamed (hagrees : FarmAgrees store files fs₀) (h : Inv store files fs₀ v m w)
    (hpc : w.pc = .rename) (hpending : w.pending = w.job :: w'.pending)
    (hfs : w.fs.rename (dedupName w.job.key) (.inside w.job.key) = some w'.fs)
    (hfd : w'.fd = w.fd) (hbuffer : w'.buffer = w.buffer) (hpc' : w'.pc = .ready) :
    Inv store files fs₀ v m w' := by
  obtain ⟨hfree, i, hfarm, htemp⟩ := h.temp hpc
  obtain ⟨⟨executable, contents, hview, hfile, hhashed, -⟩, k, hname, hfresh⟩ :=
    h.jobs w.job (by rw [hpending]; exact List.mem_cons_self)
  -- the inode from the farm is older than the restored one, and holds the same
  have hold : i < fs₀.next := fs₀.allocated _ _ hfarm
  have hik : i ≠ k := by omega
  have hobject : w.fs.inodes i = .regular executable contents := by
    rw [h.old i hold]
    refine hagrees executable contents i hfile ?_
    rw [← hhashed]
    exact hfarm
  have hkey : dedupName w.job.key ≠ .inside w.job.key := hfree.ne hview
  -- only two names change, and no inode
  have hmoved : w'.fs = (w.fs.copyName (dedupName w.job.key) (.inside w.job.key)).unlink
      (dedupName w.job.key) := by
    unfold Fs.rename at hfs
    rw [if_pos ⟨Fs.isObject_iff.mpr ⟨i, htemp⟩, by rw [hname]; simp⟩,
      if_neg (by rw [hname, htemp]; simpa using Ne.symm hik)] at hfs
    exact (Option.some.inj hfs).symm
  have hnames : ∀ q, q ≠ dedupName w.job.key → q ≠ .inside w.job.key →
      w'.fs.names q = w.fs.names q := by
    intro q hq hq'
    rw [hmoved, Fs.names_unlink, if_neg hq, Fs.names_copyName, if_neg hq']
  have hgone : w'.fs.names (dedupName w.job.key) = none := by
    rw [hmoved, Fs.names_unlink, if_pos rfl]
  have hswapped : w'.fs.names (.inside w.job.key) = some (.object i) := by
    rw [hmoved, Fs.names_unlink, if_neg hkey.symm, Fs.names_copyName, if_pos rfl, htemp]
  have hinodes : w'.fs.inodes = w.fs.inodes := by
    rw [hmoved, Fs.inodes_unlink, Fs.inodes_copyName]
  have hreads : ∀ q, q ≠ dedupName w.job.key → q ≠ .inside w.job.key →
      w'.fs.read q = w.fs.read q := by
    intro q hq hq'
    rw [Fs.read, Fs.read, hnames q hq hq', hinodes]
  have hread : w'.fs.read (.inside w.job.key) = v w.job.key := by
    rw [Fs.read_object hswapped, hinodes, hobject, hview]
  -- the file that is being written is another one
  have hnodup := h.nodup
  rw [hpending, List.map_cons] at hnodup
  have hopen : ∀ path, Open fs₀ v w path → Open fs₀ v w' path := by
    rintro path ⟨hlacks, hnew, halone⟩
    rw [← hinodes, ← hfd, ← hbuffer] at hlacks
    rw [← hfd] at hnew halone
    refine ⟨hlacks, hnew, fun q hq => ?_⟩
    by_cases hq₁ : q = dedupName w.job.key
    · rw [hq₁, hgone] at hq
      cases hq
    by_cases hq₂ : q = .inside w.job.key
    · rw [hq₂, hswapped] at hq
      cases hq
      exact absurd hold (Nat.not_lt.mpr hnew)
    · exact halone q ((hnames q hq₁ hq₂).symm.trans hq)
  -- the fields of the invariant, in their order
  refine ⟨?_, ?_, ?_, ?_, ?_, ?_, ?_, ?_, ?_, ?_⟩
  · rw [hmoved]
    exact h.next_le
  · rw [hinodes]
    exact h.old
  · -- the farm has kept its names
    intro hash
    rw [← h.farm]
    refine hnames _ (fun heq => ?_) fun h => by cases h
    rw [← heq] at hfree
    exact hfree
  · rw [hpc']
    decide
  · intro hat
    rw [hpc'] at hat
    cases hat
  · intro _
    by_cases hbeside : dedupName w.job.key = .beside
    · rw [hbeside] at hgone hfree
      rw [hgone]
      exact hfree.symm
    · rw [← h.beside fun hat => hbeside hat.2]
      exact hnames _ (Ne.symm hbeside) fun h => by cases h
  · -- the tree shows what it showed, the file that was replaced too
    intro q hq _
    by_cases hq₁ : dedupName w.job.key = .inside q
    · rw [Fs.read, ← hq₁, hgone]
      rw [hq₁] at hfree
      exact hfree.symm
    by_cases hq₂ : q = w.job.key
    · rw [hq₂]
      exact hread
    · rw [← h.shows q hq fun hat => hq₁ hat.2]
      exact hreads _ (Ne.symm hq₁) fun heq => hq₂ (Place.inside.inj heq)
  · -- no other job is for that file
    intro j hj
    obtain ⟨hhashes, l, hlname, hlfresh⟩ :=
      h.jobs j (by rw [hpending]; exact List.mem_cons_of_mem _ hj)
    have hne : j.key ≠ w.job.key := by
      intro heq
      apply (List.nodup_cons.mp hnodup).1
      rw [← heq]
      exact List.mem_map_of_mem hj
    refine ⟨hhashes, l, (hnames _ (fun heq => ?_) fun heq => ?_).trans hlname, hlfresh⟩
    · rw [heq, htemp] at hlname
      cases hlname
      exact absurd hold (Nat.not_lt.mpr hlfresh)
    · exact hne (Place.inside.inj heq)
  · exact (List.nodup_cons.mp hnodup).2
  · -- and neither is the file that is open
    have hmode := h.mode
    cases m with
    | closed => trivial
    | writing path =>
        obtain ⟨hwritten, hpath, hkeys⟩ := hmode
        rw [hpending, List.map_cons, List.mem_cons, not_or] at hkeys
        obtain ⟨e, c, -, hshown, -⟩ := hwritten.lacks
        refine ⟨hopen path hwritten, ?_, hkeys.2⟩
        rw [hnames _ (hfree.ne hshown).symm fun heq => hkeys.1 (Place.inside.inj heq), hfd]
        exact hpath
    | ending path =>
        obtain ⟨hwritten, hpath⟩ := hmode
        obtain ⟨e, c, -, hshown, -⟩ := hwritten.lacks
        refine ⟨hopen path hwritten, ?_⟩
        by_cases hsame : path = w.job.key
        · rw [hsame]
          exact Or.inr hread
        · have hne : Place.inside path ≠ .inside w.job.key :=
            fun heq => hsame (Place.inside.inj heq)
          rw [hnames _ (hfree.ne hshown).symm hne, hreads _ (hfree.ne hshown).symm hne, hfd]
          exact hpath

variable (store) in
theorem pending_record (hpc : w.pc ≠ .ready) : w.pending = w.job :: (w.record store).pending := by
  unfold pending
  rw [if_neg hpc, if_pos (show (w.record store).pc = .ready from rfl)]
  rfl

theorem record_sublist (hpc : w.pc ≠ .ready) :
    (w.record store).pending.Sublist w.pending := by
  rw [pending_record store hpc]
  exact List.sublist_cons_self _ _

/-- What one step of the worker keeps. -/
theorem workerStep_inv (hagrees : FarmAgrees store files fs₀) (h : Inv store files fs₀ v m w) :
    Inv store files fs₀ v m (w.workerStep store linkFails) := by
  unfold workerStep
  split
  · next hpc =>
      -- an event leaves the queue
      split
      · exact h
      · next ev rest hevents =>
          have hpop : w.pending = (if ev = .finish then [w.job.absorb ev] else []) ++
              endsAmong (w.job.absorb ev) rest := by
            rw [pending, if_pos hpc, hevents]
            rfl
          have hnorename : w.pc ≠ .rename := by
            rw [hpc]
            decide
          simp only
          split
          · next hfinish =>
              rw [if_pos hfinish] at hpop
              split
              · refine h.quiet rfl rfl rfl hnorename (by simp [record]) (by simp [record]) ?_
                rw [hpop]
                exact List.sublist_cons_self _ _
              · refine h.quiet rfl rfl rfl hnorename nofun nofun ?_
                rw [hpop]
                exact List.Sublist.refl _
          · next hfinish =>
              rw [if_neg hfinish, List.nil_append] at hpop
              refine h.quiet rfl rfl rfl hnorename (by simp [hpc]) (by simp [hpc]) ?_
              rw [hpop, pending, if_pos hpc]
              exact List.Sublist.refl _
  · next hpc =>
      have hnorename : w.pc ≠ .rename := by
        rw [hpc]
        decide
      split
      · refine h.quiet rfl rfl rfl hnorename nofun nofun ?_
        rw [pending, pending, if_neg (by simp), if_neg (by rw [hpc]; decide)]
      · exact h.quiet rfl rfl rfl hnorename (by simp [record]) (by simp [record])
          (record_sublist (by rw [hpc]; decide))
  · next hpc =>
      have hnorename : w.pc ≠ .rename := by
        rw [hpc]
        decide
      split
      · next fs hlink =>
          split at hlink
          · cases hlink
          unfold Fs.link at hlink
          split at hlink
          · next hmay =>
              cases hlink
              refine h.linked hnorename hmay.1 hmay.2 rfl rfl rfl rfl rfl ?_
              rw [pending, pending, if_neg (by simp), if_neg (by rw [hpc]; decide)]
          · cases hlink
      · exact h.quiet rfl rfl rfl hnorename (by simp [record]) (by simp [record])
          (record_sublist (by rw [hpc]; decide))
  · next hpc =>
      split
      · next fs hrename =>
          exact h.renamed hagrees hpc (pending_record store (by rw [hpc]; decide)) hrename rfl rfl rfl
      · next hfails =>
          -- the name to be replaced is that of a regular file
          obtain ⟨-, i, -, htemp⟩ := h.temp hpc
          obtain ⟨-, k, hname, -⟩ := h.jobs w.job (by
            rw [pending, if_neg (by rw [hpc]; decide)]
            exact List.mem_cons_self)
          unfold Fs.rename at hfails
          rw [if_pos ⟨Fs.isObject_iff.mpr ⟨i, htemp⟩, by rw [hname]; simp⟩] at hfails
          cases hfails
  · next hpc => exact absurd hpc h.no_unlink

/-- The worker's job after all events does not change while it works. -/
theorem workerStep_tail : (w.workerStep store linkFails).tail = w.tail := by
  unfold workerStep
  split
  · split
    · rfl
    · next ev rest hevents =>
        simp only [tail, hevents]
        split
        · split <;> rfl
        · rfl
  · split <;> rfl
  · split <;> rfl
  · split <;> rfl
  · rfl

/-- The worker's steps keep what each of them keeps. -/
theorem steps_keep {P : Restoring → Prop}
    (hstep : ∀ w, P w → P (w.workerStep store linkFails)) (n : Nat) (h : P w) :
    P (steps store linkFails n w) := by
  induction n generalizing w with
  | zero => exact h
  | succ n ih => exact ih (hstep w h)

theorem awaitRoom_keep {P : Restoring → Prop}
    (hstep : ∀ w, P w → P (w.workerStep store linkFails)) (n : Nat) (h : P w) :
    P (awaitRoom store linkFails n w) := by
  induction n generalizing w with
  | zero => exact h
  | succ n ih =>
      unfold awaitRoom
      split
      · exact h
      · exact ih (hstep w h)

/-- The invariant together with the job after all events. -/
def At (store : StoreDirConfig) (files : Bool → Bytes → Prop) (fs₀ : Fs Place Object) (v : View)
    (m : Mode) (j : Job) (w : Restoring) : Prop :=
  Inv store files fs₀ v m w ∧ w.tail = j

variable {j : Job}

theorem At.step (hagrees : FarmAgrees store files fs₀) (w : Restoring)
    (h : At store files fs₀ v m j w) : At store files fs₀ v m j (w.workerStep store linkFails) :=
  ⟨workerStep_inv hagrees h.1, workerStep_tail.trans h.2⟩

theorem At.turn (hagrees : FarmAgrees store files fs₀) (h : At store files fs₀ v m j w) :
    At store files fs₀ v m j (w.turn store linkFails) := by
  unfold Restoring.turn
  split
  · exact h
  · refine steps_keep (At.step hagrees) _ ⟨?_, h.2⟩
    obtain ⟨⟨h₁, h₂, h₃, h₄, h₅, h₆, h₇, h₈, h₉, h₁₀⟩, -⟩ := h
    refine ⟨h₁, h₂, h₃, h₄, h₅, h₆, h₇, fun j hj => ⟨(h₈ j hj).1, (h₈ j hj).2⟩, h₉, ?_⟩
    cases m with
    | closed => trivial
    | writing path => exact ⟨⟨h₁₀.1.1, h₁₀.1.2, h₁₀.1.3⟩, h₁₀.2⟩
    | ending path => exact ⟨⟨h₁₀.1.1, h₁₀.1.2, h₁₀.1.3⟩, h₁₀.2⟩

/-- An event is pushed, and the worker takes steps before or after. -/
theorem At.push (hagrees : FarmAgrees store files fs₀) {m' : Mode} {j' : Job} (threaded : Bool)
    {ev : Ev}
    (hpush : ∀ w, At store files fs₀ v m j w →
      At store files fs₀ v m' j' { w with events := w.events ++ [ev] })
    (h : At store files fs₀ v m j w) :
    At store files fs₀ v m' j' (w.push store linkFails threaded ev) := by
  unfold Restoring.push
  split
  · exact hpush _ (awaitRoom_keep (At.step hagrees) _ h)
  · exact steps_keep (At.step hagrees) _ (hpush w h)

/-- An event that does not end a file. -/
theorem At.enqueue {ev : Ev} (hev : ev ≠ .finish) (w : Restoring)
    (h : At store files fs₀ v m j w) :
    At store files fs₀ v m (j.absorb ev) { w with events := w.events ++ [ev] } := by
  have hpending : ({ w with events := w.events ++ [ev] } : Restoring).pending = w.pending := by
    rw [pending, pending, endsAmong_snoc, if_neg hev, List.append_nil]
  obtain ⟨⟨h₁, h₂, h₃, h₄, h₅, h₆, h₇, h₈, h₉, h₁₀⟩, htail⟩ := h
  refine ⟨⟨h₁, h₂, h₃, h₄, h₅, h₆, h₇, ?_, ?_, ?_⟩, ?_⟩
  · rw [hpending]
    exact fun j hj => ⟨(h₈ j hj).1, (h₈ j hj).2⟩
  · rw [hpending]
    exact h₉
  · cases m with
    | closed => trivial
    | writing path =>
        refine ⟨⟨h₁₀.1.1, h₁₀.1.2, h₁₀.1.3⟩, h₁₀.2.1, ?_⟩
        rw [hpending]
        exact h₁₀.2.2
    | ending path => exact ⟨⟨h₁₀.1.1, h₁₀.1.2, h₁₀.1.3⟩, h₁₀.2⟩
  · rw [← htail]
    exact tailFrom_snoc _ _ _

/-- The end of the file that is being written. -/
theorem At.finished {path : NodePath} {executable : Bool} {contents : Bytes}
    (hview : v path = some (.object (.regular executable contents)))
    (hfile : files executable contents) (hkey : j.key = path)
    (hhashed : (j.absorb .finish).hashed = fileNar executable contents)
    (hsize : j.size = contents.length) (w : Restoring)
    (h : At store files fs₀ v (.writing path) j w) :
    At store files fs₀ v (.ending path) (j.absorb .finish)
      { w with events := w.events ++ [.finish] } := by
  have hpending : ({ w with events := w.events ++ [.finish] } : Restoring).pending
      = w.pending ++ [j.absorb .finish] := by
    rw [pending, pending, endsAmong_snoc, if_pos rfl, ← List.append_assoc]
    exact congrArg (fun k => _ ++ [Job.absorb k Ev.finish]) h.2
  have hsame : (j.absorb .finish).key = path := hkey
  obtain ⟨⟨h₁, h₂, h₃, h₄, h₅, h₆, h₇, h₈, h₉, ⟨hopen, hname, hkeys⟩⟩, htail⟩ := h
  refine ⟨⟨h₁, h₂, h₃, h₄, h₅, h₆, h₇, ?_, ?_, ?_⟩, ?_⟩
  · rw [hpending]
    intro k hk
    rcases List.mem_append.mp hk with hk | hk
    · exact ⟨(h₈ k hk).1, (h₈ k hk).2⟩
    · rw [List.mem_singleton.mp hk]
      refine ⟨⟨executable, contents, ?_, hfile, hhashed, hsize⟩, w.fd, ?_, hopen.new⟩
      · rw [hsame]
        exact hview
      · rw [hsame]
        exact hname
  · rw [hpending, List.map_append, List.map_singleton, hsame]
    exact List.nodup_append.mpr ⟨h₉, List.nodup_singleton _, fun a ha b hb heq => hkeys (by
      rw [← List.mem_singleton.mp hb, ← heq]
      exact ha)⟩
  · exact ⟨⟨hopen.1, hopen.2, hopen.3⟩, Or.inl hname⟩
  · rw [← htail]
    exact tailFrom_snoc _ _ _

-- ============================================================================
-- Actions of the restoring thread
-- ============================================================================

/-- What a name shows is not changed by a change of inodes it does not stand
    for. -/
theorem read_congr {fs fs' : Fs Place Object} {k : Place} (hname : fs'.names k = fs.names k)
    (hinode : ∀ i, fs.names k = some (.object i) → fs'.inodes i = fs.inodes i) :
    fs'.read k = fs.read k := by
  rw [Fs.read, Fs.read, hname]
  split
  · rfl
  · rfl
  · next i hi => rw [hinode i hi]

/-- A new name appears where the worker's link is not. -/
theorem Inv.created (h : Inv store files fs₀ v .closed w) {path : NodePath} {n : Node Object}
    {e : Entry} (hnone : v path = none) (hholds : ¬ w.Holds (.inside path))
    (hname : ∀ k, w'.fs.names k = if k = .inside path then some e else w.fs.names k)
    (hinodes : ∀ i, i < w.fs.next → w'.fs.inodes i = w.fs.inodes i)
    (hnext : w.fs.next ≤ w'.fs.next) (hread : w'.fs.read (.inside path) = some n)
    (hjob : w'.job = w.job) (hpc : w'.pc = w.pc) (hpending : w'.pending = w.pending) :
    Inv store files fs₀ (v.set path n) .closed w' := by
  have hholds_iff : ∀ k, w'.Holds k ↔ w.Holds k := by
    intro k
    rw [Holds, Holds, hjob, hpc]
  have hother : ∀ {q : NodePath} {a : Node Object}, v q = some a → q ≠ path := by
    rintro q a hq rfl
    rw [hnone] at hq
    cases hq
  have hnames : ∀ k, k ≠ .inside path → w'.fs.names k = w.fs.names k := by
    intro k hk
    rw [hname, if_neg hk]
  refine ⟨h.next_le.trans hnext, ?_, ?_, ?_, ?_, ?_, ?_, ?_, ?_, trivial⟩
  · intro i hi
    rw [hinodes i (lt_of_lt_of_le hi h.next_le)]
    exact h.old i hi
  · intro hash
    exact (hnames (.farm hash) nofun).trans (h.farm hash)
  · rw [hpc]
    exact h.no_unlink
  · intro hat
    rw [hpc] at hat
    obtain ⟨hfree, htemp⟩ := h.temp hat
    have hne : dedupName w.job.key ≠ .inside path := fun heq => hholds ⟨hat, heq⟩
    rw [hash, hjob, hnames _ hne]
    exact ⟨hfree.set n hne, htemp⟩
  · intro hno
    rw [hholds_iff] at hno
    exact (hnames .beside nofun).trans (h.beside hno)
  · intro q _ hno
    rw [hholds_iff] at hno
    by_cases hq : q = path
    · rw [hq, View.set_self]
      exact hread
    · rw [View.set_of_ne v n hq, ← h.shows q nofun hno]
      refine read_congr (hnames _ fun heq => hq (Place.inside.inj heq)) fun i hi => ?_
      exact hinodes i (w.fs.allocated _ _ hi)
  · rw [hpending]
    intro j hj
    obtain ⟨⟨executable, contents, hview, hrest⟩, i, hi, hfresh⟩ := h.jobs j hj
    have hne := hother hview
    refine ⟨⟨executable, contents, ?_, hrest⟩, i, ?_, hfresh⟩
    · rw [View.set_of_ne v n hne]
      exact hview
    · rw [hnames _ fun heq => hne (Place.inside.inj heq)]
      exact hi
  · rw [hpending]
    exact h.nodup

/-- The file that was created is open. -/
theorem Inv.opened {path : NodePath} (h : Inv store files fs₀ v .closed w)
    (hmode : (Mode.writing path).Ok fs₀ v w) : Inv store files fs₀ v (.writing path) w :=
  ⟨h.next_le, h.old, h.farm, h.no_unlink, h.temp, h.beside, fun q _ => h.shows q nofun, h.jobs,
    h.nodup, hmode⟩

/-- The open file is changed through its descriptor. -/
theorem Inv.rewritten {path : NodePath} (h : Inv store files fs₀ v (.writing path) w)
    {executable : Bool} {contents written : Bytes} (hnames : w'.fs.names = w.fs.names)
    (hinodes : ∀ i, i ≠ w.fd → w'.fs.inodes i = w.fs.inodes i) (hnext : w'.fs.next = w.fs.next)
    (hfd : w'.fd = w.fd) (hinode : w'.fs.inodes w.fd = .regular executable written)
    (hcontents : contents = written ++ w'.buffer) (hjob : w'.job = w.job) (hpc : w'.pc = w.pc)
    (hpending : w'.pending = w.pending) :
    Inv store files fs₀ (v.set path (.object (.regular executable contents))) (.writing path) w' := by
  obtain ⟨hopen, hname, hkeys⟩ := h.mode
  obtain ⟨e, c, -, hview, -⟩ := hopen.lacks
  have hholds_iff : ∀ k, w'.Holds k ↔ w.Holds k := by
    intro k
    rw [Holds, Holds, hjob, hpc]
  -- the fields of the invariant: only what is shown at `path` changes
  refine ⟨?_, ?_, ?_, ?_, ?_, ?_, ?_, ?_, ?_, ?_⟩
  · rw [hnext]
    exact h.next_le
  · intro i hi
    have hnew := hopen.new
    rw [hinodes i (by omega)]
    exact h.old i hi
  · rw [hnames]
    exact h.farm
  · rw [hpc]
    exact h.no_unlink
  · intro hat
    rw [hpc] at hat
    obtain ⟨hfree, htemp⟩ := h.temp hat
    rw [hash, hjob, hnames]
    exact ⟨hfree.set _ (hfree.ne hview), htemp⟩
  · intro hno
    rw [hholds_iff] at hno
    rw [hnames]
    exact h.beside hno
  · -- everything else that is shown has another inode
    intro q hq hno
    rw [hholds_iff] at hno
    have hne : q ≠ path := fun heq => hq (by rw [heq]; rfl)
    rw [View.set_of_ne v _ hne, ← h.shows q hq hno]
    refine read_congr (by rw [hnames]) fun i hi => hinodes i ?_
    rintro rfl
    exact hne (Place.inside.inj (hopen.alone _ hi))
  · rw [hpending]
    -- no job is for a file that is still open
    intro j hj
    obtain ⟨⟨e', c', hshown, hrest⟩, hfresh⟩ := h.jobs j hj
    have hne : j.key ≠ path := by
      rintro rfl
      exact hkeys (List.mem_map_of_mem hj)
    refine ⟨⟨e', c', ?_, hrest⟩, ?_⟩
    · rw [View.set_of_ne v _ hne]
      exact hshown
    · rw [hnames]
      exact hfresh
  · rw [hpending]
    exact h.nodup
  · -- what is shown is what is written with what is buffered
    refine ⟨⟨⟨executable, contents, written, View.set_self _ _ _, ?_, hcontents⟩, ?_, ?_⟩, ?_, ?_⟩
    · rw [hfd]
      exact hinode
    · rw [hfd]
      exact hopen.new
    · rw [hnames, hfd]
      exact hopen.alone
    · rw [hnames, hfd]
      exact hname
    · rw [hpending]
      exact hkeys

/-- What was buffered is written after the end. -/
theorem Inv.flushed {path : NodePath} (h : Inv store files fs₀ v (.ending path) w) :
    Inv store files fs₀ v .closed w.flush := by
  obtain ⟨hopen, hname⟩ := h.mode
  obtain ⟨executable, contents, written, hview, hinode, hcontents⟩ := hopen.lacks
  have hfull : w.flush.fs.inodes w.fd = .regular executable contents := by
    show (w.fs.modify w.fd _).inodes w.fd = _
    rw [Fs.inodes_modify, if_pos rfl, hinode, hcontents]
    rfl
  have hinodes : ∀ i, i ≠ w.fd → w.flush.fs.inodes i = w.fs.inodes i := by
    intro i hi
    show (w.fs.modify w.fd _).inodes i = _
    rw [Fs.inodes_modify, if_neg hi]
  refine ⟨h.next_le, ?_, h.farm, h.no_unlink, h.temp, h.beside, ?_, ?_, h.nodup, trivial⟩
  · intro i hi
    have hnew := hopen.new
    rw [hinodes i (by omega)]
    exact h.old i hi
  · intro q _ hno
    by_cases hq : q = path
    · rw [hq]
      by_cases hown : w.fs.names (.inside path) = some (.object w.fd)
      · have hkept : w.flush.fs.names (.inside path) = some (.object w.fd) := hown
        rw [Fs.read_object hkept, hfull, hview]
      · rcases hname with hname | hsame
        · exact absurd hname hown
        · rw [← hsame]
          refine read_congr rfl fun i hi => hinodes i ?_
          rintro rfl
          exact hown hi
    · have hopens : (Mode.ending path).opens ≠ some q := by
        intro heq
        exact hq (Option.some.inj heq).symm
      rw [← h.shows q hopens hno]
      refine read_congr rfl fun i hi => hinodes i ?_
      rintro rfl
      exact hq (Place.inside.inj (hopen.alone _ hi))
  · exact fun j hj => ⟨(h.jobs j hj).1, (h.jobs j hj).2⟩

-- ============================================================================
-- Calls
-- ============================================================================

/-- What the hash of a file starts with. -/
def narHeader (executable : Bool) : Bytes :=
  writeString narVersionMagic1 ++ tag "(" ++ tag "type" ++ tag "regular" ++
    (if executable then tag "executable" ++ tag "" else [])

/-- The job of the file that is being written, once the worker has caught up. -/
structure Agrees (executable : Bool) (contents : Bytes) (cur : Current) (j : Job) : Prop where
  key : j.key = cur.path
  begun : cur.size = none → contents = [] ∧ j.hashed = narHeader executable
  sized : ∀ n, cur.size = some n → j.size = n ∧
    j.hashed = narHeader executable ++ tag "contents" ++ writeNum n ++ contents

section

variable {path : NodePath} {executable : Bool} {contents : Bytes} {n : Nat} {j : Job}

theorem Agrees.begin (path : NodePath) (j : Job) :
    Agrees false [] ⟨path, none⟩ (j.absorb (.begin path)) :=
  ⟨rfl, fun _ => ⟨rfl, (List.append_nil _).symm⟩, nofun⟩

theorem Agrees.exec (h : Agrees false [] ⟨path, none⟩ j) :
    Agrees true [] ⟨path, none⟩ (j.absorb .exec) := by
  refine ⟨h.key, fun _ => ⟨rfl, ?_⟩, nofun⟩
  show j.hashed ++ tag "executable" ++ tag "" = narHeader true
  rw [(h.begun rfl).2, narHeader, narHeader]
  simp only [Bool.false_eq_true, if_false, if_true, List.append_nil, List.append_assoc]

theorem Agrees.size (h : Agrees executable [] ⟨path, none⟩ j) (n : Nat) :
    Agrees executable [] ⟨path, some n⟩ (j.absorb (.size n)) := by
  refine ⟨h.key, nofun, fun n' hn => ?_⟩
  cases hn
  refine ⟨rfl, ?_⟩
  show j.hashed ++ tag "contents" ++ writeNum n = _
  rw [(h.begun rfl).2, List.append_nil]

theorem Agrees.data (h : Agrees executable contents ⟨path, some n⟩ j) (data : Bytes) :
    Agrees executable (contents ++ data) ⟨path, some n⟩ (j.absorb (.data data)) := by
  refine ⟨h.key, nofun, fun n' hn => ?_⟩
  obtain ⟨hsize, hhashed⟩ := h.sized n' hn
  refine ⟨hsize, ?_⟩
  show j.hashed ++ data = _
  rw [hhashed, List.append_assoc _ contents data]

/-- What the end adds completes the archive of the file. -/
theorem Agrees.finish (h : Agrees executable contents ⟨path, some contents.length⟩ j) :
    (j.absorb .finish).hashed = fileNar executable contents := by
  obtain ⟨hsize, hhashed⟩ := h.sized _ rfl
  show j.hashed ++ writePadding j.size ++ tag ")" = _
  rw [hhashed, hsize]
  rfl

end

/-- The invariant between two calls. -/
def Builds (store : StoreDirConfig) (files : Bool → Bytes → Prop) (fs₀ : Fs Place Object)
    (b : Built) (w : Restoring) : Prop :=
  match b.current with
  | none => Inv store files fs₀ b.view .closed w
  | some cur => ∃ executable contents j,
      b.view cur.path = some (.object (.regular executable contents)) ∧
      At store files fs₀ b.view (.writing cur.path) j w ∧ Agrees executable contents cur j

theorem Inv.turn (hagrees : FarmAgrees store files fs₀) (h : Inv store files fs₀ v m w) :
    Inv store files fs₀ v m (w.turn store linkFails) :=
  (At.turn hagrees (j := w.tail) ⟨h, rfl⟩).1

theorem names_of_read_directory {fs : Fs Place Object} {k : Place}
    (h : fs.read k = some .directory) : fs.names k = some .directory := by
  unfold Fs.read at h
  split at h
  · cases h
  · next hname => exact hname
  · cases h

theorem names_of_read_none {fs : Fs Place Object} {k : Place} (h : fs.read k = none) :
    fs.names k = none := by
  unfold Fs.read at h
  split at h
  · next hname => exact hname
  · cases h
  · cases h

/-- A new name can be made where there is room. -/
theorem newEntry_ok (h : Inv store files fs₀ v .closed w) {path : NodePath} (hroom : v.Room path)
    (what : String) (make : Fs Place Object → Option (Fs Place Object)) {fs : Fs Place Object}
    (hmake : make w.fs = some fs) : newEntry what path make w = .ok { w with fs } := by
  have hparent : ¬ (path ≠ [] ∧ w.fs.names (.inside path.dropLast) ≠ some .directory) := by
    rintro ⟨hne, hno⟩
    rcases hroom.2 with hroot | hdir
    · exact hne hroot
    · apply hno
      apply names_of_read_directory
      rw [h.shows _ nofun fun hholds => ?_, hdir]
      exact (h.temp hholds.1).1.ne hdir hholds.2
  rw [newEntry, throwIf, if_neg hparent, ok_bind, hmake]
  rfl

theorem newEntry_error {what : String} {path : NodePath}
    (make : Fs Place Object → Option (Fs Place Object)) (hmake : make w.fs = none) :
    ∃ e, newEntry what path make w = .error e := by
  unfold newEntry throwIf
  split
  · exact ⟨_, rfl⟩
  · rw [ok_bind, hmake]
    exact ⟨_, rfl⟩

/-- Nothing is at a name for which there is room, unless the worker's link is. -/
theorem Inv.names_none (h : Inv store files fs₀ v .closed w) {path : NodePath}
    (hnone : v path = none) (hholds : ¬ w.Holds (.inside path)) :
    w.fs.names (.inside path) = none := by
  apply names_of_read_none
  rw [h.shows path nofun hholds, hnone]

theorem fdWrite_keeps (data : Bytes) :
    (w.fdWrite data).fs.names = w.fs.names ∧
      (∀ i, i ≠ w.fd → (w.fdWrite data).fs.inodes i = w.fs.inodes i) ∧
      (w.fdWrite data).fs.next = w.fs.next ∧ (w.fdWrite data).fd = w.fd ∧
      (w.fdWrite data).job = w.job ∧ (w.fdWrite data).pc = w.pc ∧
      (w.fdWrite data).events = w.events := by
  unfold fdWrite
  split
  · refine ⟨rfl, fun i hi => ?_, rfl, rfl, rfl, rfl, rfl⟩
    simp only [flush, Fs.inodes_modify, if_neg hi]
  · exact ⟨rfl, fun _ _ => rfl, rfl, rfl, rfl, rfl, rfl⟩

/-- What is written and what is buffered grow by the data. -/
theorem fdWrite_contents {executable : Bool} {written : Bytes} (data : Bytes)
    (h : w.fs.inodes w.fd = .regular executable written) :
    ∃ written', (w.fdWrite data).fs.inodes w.fd = .regular executable written' ∧
      written' ++ (w.fdWrite data).buffer = written ++ w.buffer ++ data := by
  unfold fdWrite
  split
  · refine ⟨written ++ w.buffer ++ data, ?_, List.append_nil _⟩
    simp only [flush, Fs.inodes_modify, if_true, h, appendTo]
  · exact ⟨written, h, by rw [List.append_assoc]⟩

/-- A directory is made where there is room. -/
theorem Inv.makesDirectory (h : Inv store files fs₀ v .closed w) {path : NodePath}
    (hroom : v.Room path) (hholds : ¬ w.Holds (.inside path)) :
    newEntry "directory" path (·.mkdir (.inside path)) w
        = .ok { w with fs := w.fs.addDirectory (.inside path) } ∧
      Inv store files fs₀ (v.set path .directory) .closed
        { w with fs := w.fs.addDirectory (.inside path) } := by
  have hnone := h.names_none hroom.1 hholds
  refine ⟨newEntry_ok h hroom "directory" (·.mkdir (.inside path)) (if_pos hnone), ?_⟩
  refine h.created hroom.1 hholds (Fs.names_addDirectory _ _) (fun _ _ => rfl) le_rfl ?_ rfl rfl rfl
  rw [Fs.read, Fs.names_addDirectory, if_pos rfl]

theorem Inv.makesSymlink (h : Inv store files fs₀ v .closed w) {path : NodePath} (target : Bytes)
    (hroom : v.Room path) (hholds : ¬ w.Holds (.inside path)) :
    newEntry "symlink" path (·.create (.inside path) (.symlink target)) w
        = .ok { w with fs := w.fs.addObject (.inside path) (.symlink target) } ∧
      Inv store files fs₀ (v.set path (.object (.symlink target))) .closed
        { w with fs := w.fs.addObject (.inside path) (.symlink target) } := by
  have hnone := h.names_none hroom.1 hholds
  refine ⟨newEntry_ok h hroom "symlink" (·.create (.inside path) (.symlink target)) (if_pos hnone),
    ?_⟩
  refine h.created hroom.1 hholds (Fs.names_addObject _ _ _) (fun i hi => ?_) (Nat.le_succ _) ?_ rfl
    rfl rfl
  · exact (Fs.inodes_addObject _ _ _ _).trans (if_neg (Nat.ne_of_lt hi))
  · rw [Fs.read_object (by rw [Fs.names_addObject, if_pos rfl]), Fs.inodes_addObject, if_pos rfl]

/-- The state in which a new regular file is open. -/
def opening (path : NodePath) (w : Restoring) : Restoring :=
  { w with
    fs := w.fs.addObject (.inside path) (.regular false []), fd := w.fs.next, buffer := [] }

theorem Inv.opensFile (h : Inv store files fs₀ v .closed w) {path : NodePath}
    (hroom : v.Room path) (hholds : ¬ w.Holds (.inside path)) :
    newEntry "file" path (·.create (.inside path) (.regular false [])) w
        = .ok { w with fs := w.fs.addObject (.inside path) (.regular false []) } ∧
      Inv store files fs₀ (v.set path (.object (.regular false []))) (.writing path)
        (w.opening path) := by
  have hnone := h.names_none hroom.1 hholds
  refine ⟨newEntry_ok h hroom "file" (·.create (.inside path) (.regular false [])) (if_pos hnone),
    ?_⟩
  have hclosed : Inv store files fs₀ (v.set path (.object (.regular false []))) .closed
      (w.opening path) := by
    refine h.created hroom.1 hholds (Fs.names_addObject _ _ _) (fun i hi => ?_)
      (Nat.le_succ _) ?_ rfl rfl rfl
    · exact (Fs.inodes_addObject _ _ _ _).trans (if_neg (Nat.ne_of_lt hi))
    · show (w.fs.addObject _ _).read _ = _
      rw [Fs.read_object (by rw [Fs.names_addObject, if_pos rfl]), Fs.inodes_addObject, if_pos rfl]
  refine hclosed.opened ⟨⟨⟨false, [], [], View.set_self _ _ _, ?_, rfl⟩, h.next_le, ?_⟩, ?_, ?_⟩
  · exact (Fs.inodes_addObject _ _ _ _).trans (if_pos rfl)
  · intro k hk
    by_contra hne
    have hkept : w.fs.names k = some (.object w.fs.next) :=
      ((Fs.names_addObject _ _ _ _).trans (if_neg hne)).symm.trans hk
    exact absurd (w.fs.allocated _ _ hkept) (Nat.lt_irrefl _)
  · exact (Fs.names_addObject _ _ _ _).trans (if_pos rfl)
  · intro hin
    obtain ⟨j, hj, hkey⟩ := List.mem_map.mp hin
    obtain ⟨⟨e, c, hview, -⟩, -⟩ := h.jobs j hj
    rw [hkey, hroom.1] at hview
    cases hview

/-- The open file is marked executable. -/
theorem Inv.marks {path : NodePath} (h : Inv store files fs₀ v (.writing path) w)
    (hview : v path = some (.object (.regular false []))) :
    Inv store files fs₀ (v.set path (.object (.regular true []))) (.writing path)
      { w with fs := w.fs.modify w.fd markExecutable } := by
  obtain ⟨⟨⟨e, c, written, hshown, hinode, hcontents⟩, -, -⟩, -, -⟩ := h.mode
  cases hshown.symm.trans hview
  refine h.rewritten rfl (fun i hi => ?_) rfl rfl ?_ hcontents rfl rfl rfl
  · exact (Fs.inodes_modify _ _ _ _).trans (if_neg hi)
  · rw [Fs.inodes_modify, if_pos rfl, hinode]
    rfl

/-- Contents are written to the open file, or to its buffer. -/
theorem Inv.writes {path : NodePath} {executable : Bool} {contents : Bytes}
    (h : Inv store files fs₀ v (.writing path) w) (data : Bytes)
    (hview : v path = some (.object (.regular executable contents))) :
    Inv store files fs₀ (v.set path (.object (.regular executable (contents ++ data))))
      (.writing path) (w.fdWrite data) := by
  obtain ⟨⟨⟨e, c, written, hshown, hinode, hcontents⟩, -, -⟩, -, -⟩ := h.mode
  cases hshown.symm.trans hview
  obtain ⟨hnames, hinodes, hnext, hfd, hsame, hpc, hevents⟩ := fdWrite_keeps (w := w) data
  obtain ⟨written', hinode', hgrown⟩ := fdWrite_contents data hinode
  refine h.rewritten hnames hinodes hnext hfd hinode' ?_ hsame hpc ?_
  · rw [hgrown, hcontents]
  · rw [pending, pending, hpc, hsame, hevents]

variable (linkFails) (threaded : Bool)

/-- The worker's turn, and then an event that does not end a file. -/
theorem At.reported (hagrees : FarmAgrees store files fs₀) (ev : Ev) (hev : ev ≠ .finish)
    (h : At store files fs₀ v m j w) :
    At store files fs₀ v m (j.absorb ev)
      (Restoring.push store linkFails threaded ev (w.turn store linkFails)) :=
  At.push hagrees threaded (At.enqueue hev) (At.turn hagrees h)

theorem At.taken (hagrees : FarmAgrees store files fs₀) (h : At store files fs₀ v m j w) :
    At store files fs₀ v m j (w.turn store linkFails) := At.turn hagrees h

/-- A directory or a symlink is made. -/
theorem directory_call (hagrees : FarmAgrees store files fs₀) {path : NodePath}
    (h : Inv store files fs₀ v .closed w) (hroom : v.Room path)
    (hholds : ¬ (w.turn store linkFails).Holds (.inside path)) :
    ∃ w', (fileHashingSink store linkFails threaded).createDirectory path w = .ok w' ∧
      Inv store files fs₀ (v.set path .directory) .closed w' :=
  ⟨_, (h.turn hagrees).makesDirectory hroom hholds⟩

theorem symlink_call (hagrees : FarmAgrees store files fs₀) {path : NodePath} {target : Bytes}
    (h : Inv store files fs₀ v .closed w) (hroom : v.Room path)
    (hholds : ¬ (w.turn store linkFails).Holds (.inside path)) :
    ∃ w', (fileHashingSink store linkFails threaded).createSymlink path target w = .ok w' ∧
      Inv store files fs₀ (v.set path (.object (.symlink target))) .closed w' :=
  ⟨_, (h.turn hagrees).makesSymlink target hroom hholds⟩

/-- A regular file is made and its beginning reported. -/
theorem regular_call (hagrees : FarmAgrees store files fs₀) {path : NodePath}
    (h : Inv store files fs₀ v .closed w) (hroom : v.Room path)
    (hholds : ¬ (w.turn store linkFails).Holds (.inside path)) :
    ∃ w', (fileHashingSink store linkFails threaded).createRegularFile path w = .ok w' ∧
      Builds store files fs₀ ⟨v.set path (.object (.regular false [])), some ⟨path, none⟩⟩ w' := by
  obtain ⟨hentry, hopen⟩ := Inv.opensFile (h.turn hagrees) hroom hholds
  let w₂ := (w.turn store linkFails).opening path
  have hrun : (fileHashingSink store linkFails threaded).createRegularFile path w
      = .ok (push store linkFails threaded (.begin path) (w₂.turn store linkFails)) := by
    show newEntry "file" path _ (w.turn store linkFails) >>= _ = _
    rw [hentry]
    rfl
  refine ⟨_, hrun, false, [], w₂.tail.absorb (.begin path), View.set_self _ _ _, ?_,
    Agrees.begin path w₂.tail⟩
  exact At.push hagrees threaded (At.enqueue nofun) (At.turn hagrees ⟨hopen, rfl⟩)

/-- The file is marked executable. -/
theorem executable_call (hagrees : FarmAgrees store files fs₀) {path : NodePath}
    (hview : v path = some (.object (.regular false [])))
    (h : Builds store files fs₀ ⟨v, some ⟨path, none⟩⟩ w) :
    ∃ w', (fileHashingSink store linkFails threaded).isExecutable path w = .ok w' ∧
      Builds store files fs₀ ⟨v.set path (.object (.regular true [])), some ⟨path, none⟩⟩ w' := by
  obtain ⟨executable, contents, j, hshown, hat, hjob⟩ := h
  cases hshown.symm.trans hview
  obtain ⟨hinv, htail⟩ := (hat.reported linkFails threaded hagrees .exec nofun).taken linkFails hagrees
  exact ⟨_, rfl, true, [], j.absorb .exec, View.set_self _ _ _, ⟨hinv.marks hview, htail⟩, hjob.exec⟩

/-- The size of the contents is reported. -/
theorem size_call (hagrees : FarmAgrees store files fs₀) {path : NodePath} {executable : Bool}
    (n : Nat) (hview : v path = some (.object (.regular executable [])))
    (h : Builds store files fs₀ ⟨v, some ⟨path, none⟩⟩ w) :
    ∃ w', (fileHashingSink store linkFails threaded).preallocateContents path n w = .ok w' ∧
      Builds store files fs₀ ⟨v, some ⟨path, some n⟩⟩ w' := by
  obtain ⟨e, c, j, hshown, hat, hjob⟩ := h
  cases hshown.symm.trans hview
  exact ⟨_, rfl, executable, [], j.absorb (.size n), hview,
    hat.reported linkFails threaded hagrees (.size n) nofun, hjob.size n⟩

/-- Contents are written. -/
theorem data_call (hagrees : FarmAgrees store files fs₀) {path : NodePath} {executable : Bool}
    {contents : Bytes} {n : Nat} (data : Bytes)
    (hview : v path = some (.object (.regular executable contents)))
    (h : Builds store files fs₀ ⟨v, some ⟨path, some n⟩⟩ w) :
    ∃ w', (fileHashingSink store linkFails threaded).write path data w = .ok w' ∧
      Builds store files fs₀
        ⟨v.set path (.object (.regular executable (contents ++ data))), some ⟨path, some n⟩⟩ w' := by
  obtain ⟨e, c, j, hshown, hat, hjob⟩ := h
  cases hshown.symm.trans hview
  obtain ⟨hinv, htail⟩ :=
    (hat.reported linkFails threaded hagrees (.data data) nofun).taken linkFails hagrees
  obtain ⟨-, -, -, -, hsame, -, hevents⟩ := fdWrite_keeps (w :=
    (push store linkFails threaded (.data data) (w.turn store linkFails)).turn store linkFails) data
  refine ⟨_, rfl, executable, contents ++ data, j.absorb (.data data), View.set_self _ _ _,
    ⟨hinv.writes data hview, ?_⟩, hjob.data data⟩
  rw [tail, hsame, hevents]
  exact htail

/-- The file has ended. -/
theorem finish_call (hagrees : FarmAgrees store files fs₀) {path : NodePath} {executable : Bool}
    {contents : Bytes} (hview : v path = some (.object (.regular executable contents)))
    (hfile : files executable contents)
    (h : Builds store files fs₀ ⟨v, some ⟨path, some contents.length⟩⟩ w) :
    ∃ w', (fileHashingSink store linkFails threaded).finishRegularFile path w = .ok w' ∧
      Inv store files fs₀ v .closed w' := by
  obtain ⟨e, c, j, hshown, hat, hjob⟩ := h
  cases hshown.symm.trans hview
  obtain ⟨hsize, -⟩ := hjob.sized _ rfl
  have hended : At store files fs₀ v (.ending path) (j.absorb .finish)
      (push store linkFails threaded .finish (w.turn store linkFails)) :=
    At.push hagrees threaded (At.finished hview hfile hjob.key hjob.finish hsize)
      (hat.taken linkFails hagrees)
  exact ⟨_, rfl, (hended.taken linkFails hagrees).1.flushed⟩

variable (store) in
/-- No call creates a name while the worker's link has it. -/
def Undisturbed : List Call → Restoring → Prop
  | [], _ => True
  | c :: rest, w =>
      (∀ path, c.created = some path → ¬ (w.turn store linkFails).Holds (.inside path)) ∧
        ∀ w', c.run (fileHashingSink store linkFails threaded) w = .ok w' → Undisturbed rest w'

/-- A call in its place goes through if the worker's link is not in the way. -/
theorem call_ok (hagrees : FarmAgrees store files fs₀) {b b' : Built} {c : Call}
    (h : Builds store files fs₀ b w) (hstep : SeqStep files b c b')
    (hholds : ∀ path, c.created = some path →
      ¬ (w.turn store linkFails).Holds (.inside path)) :
    ∃ w', c.run (fileHashingSink store linkFails threaded) w = .ok w' ∧
      Builds store files fs₀ b' w' := by
  cases hstep with
  | directory hroom => exact directory_call linkFails threaded hagrees h hroom (hholds _ rfl)
  | symlink hroom => exact symlink_call linkFails threaded hagrees h hroom (hholds _ rfl)
  | regular hroom => exact regular_call linkFails threaded hagrees h hroom (hholds _ rfl)
  | executable hview => exact executable_call linkFails threaded hagrees hview h
  | size hview => exact size_call linkFails threaded hagrees _ hview h
  | data hview => exact data_call linkFails threaded hagrees _ hview h
  | finish hview hfile => exact finish_call linkFails threaded hagrees hview hfile h

/-- The name of the worker's link cannot be created. -/
theorem call_blocked (hagrees : FarmAgrees store files fs₀) {b b' : Built} {c : Call}
    (h : Builds store files fs₀ b w) (hstep : SeqStep files b c b') {path : NodePath}
    (hcreated : c.created = some path) (hholds : (w.turn store linkFails).Holds (.inside path)) :
    ∃ e, c.run (fileHashingSink store linkFails threaded) w = .error e := by
  have htaken : ∀ v, Inv store files fs₀ v .closed w →
      (w.turn store linkFails).fs.names (.inside path) ≠ none := by
    intro v hinv
    have hturn : Inv store files fs₀ v .closed (w.turn store linkFails) := hinv.turn hagrees
    obtain ⟨-, i, -, hname⟩ := hturn.temp hholds.1
    rw [← hholds.2, hname]
    exact nofun
  cases hstep with
  | directory hroom =>
      cases hcreated
      exact newEntry_error (·.mkdir (.inside path)) (if_neg (htaken _ h))
  | @symlink _ _ target hroom =>
      cases hcreated
      exact newEntry_error (·.create (.inside path) (.symlink target)) (if_neg (htaken _ h))
  | regular hroom =>
      cases hcreated
      obtain ⟨e, he⟩ : ∃ e, newEntry "file" path (·.create (.inside path) (.regular false []))
          (w.turn store linkFails) = .error e := newEntry_error _ (if_neg (htaken _ h))
      refine ⟨e, ?_⟩
      show newEntry "file" path _ (w.turn store linkFails) >>= _ = _
      rw [he]
      rfl
  | executable _ => cases hcreated
  | size _ => cases hcreated
  | data _ => cases hcreated
  | finish _ _ => cases hcreated

/-- Calls in their places go through exactly if they are not disturbed. -/
theorem runCalls_iff (hagrees : FarmAgrees store files fs₀) {b b' : Built} {l : List Call}
    (hrun : SeqRun files b l b') (h : Builds store files fs₀ b w) :
    ((∃ w', runCalls (fileHashingSink store linkFails threaded) l w = .ok w') ↔
      Undisturbed store linkFails threaded l w) ∧
    ∀ w', runCalls (fileHashingSink store linkFails threaded) l w = .ok w' →
      Builds store files fs₀ b' w' := by
  induction hrun generalizing w with
  | nil b =>
      refine ⟨iff_of_true ⟨w, rfl⟩ trivial, fun w' hw' => ?_⟩
      cases hw'
      exact h
  | @cons b b₁ b' c rest hstep _ ih =>
      by_cases hfree : ∀ path, c.created = some path →
          ¬ (w.turn store linkFails).Holds (.inside path)
      · obtain ⟨w₁, hcall, hbuilds⟩ := call_ok linkFails threaded hagrees h hstep hfree
        have hsplit : runCalls (fileHashingSink store linkFails threaded) (c :: rest) w
            = runCalls (fileHashingSink store linkFails threaded) rest w₁ := by
          rw [runCalls, hcall]
          rfl
        obtain ⟨hiff, hafter⟩ := ih hbuilds
        rw [hsplit]
        refine ⟨hiff.trans ⟨fun hrest => ⟨hfree, fun w' hw' => ?_⟩, fun hrest => hrest.2 w₁ hcall⟩,
          hafter⟩
        rw [hcall] at hw'
        cases hw'
        exact hrest
      · obtain ⟨path, hcreated, hholds⟩ : ∃ path, c.created = some path ∧
            (w.turn store linkFails).Holds (.inside path) := by
          by_contra hno
          exact hfree fun path hpath hholds => hno ⟨path, hpath, hholds⟩
        obtain ⟨e, he⟩ := call_blocked linkFails threaded hagrees h hstep hcreated hholds
        have hfails : runCalls (fileHashingSink store linkFails threaded) (c :: rest) w
            = .error e := by
          rw [runCalls, he]
          rfl
        rw [hfails]
        refine ⟨iff_of_false ?_ fun hrest => hfree hrest.1, nofun⟩
        rintro ⟨w', hw'⟩
        cases hw'

/-- Every step of the worker is progress. -/
theorem work_workerStep : (w.workerStep store linkFails).work ≤ w.work - 1 := by
  unfold workerStep
  split
  · next hpc =>
      split
      · exact le_of_eq_of_le (by simp [work, *, pcWork]) (Nat.zero_le _)
      · next ev rest hevents =>
          simp only [work, hpc, hevents, List.length_cons, pcWork]
          split
          · split <;> simp only [record] <;> omega
          · dsimp only
            omega
  · next hpc =>
      split <;> simp only [work, hpc, record, pcWork] <;> omega
  · next hpc =>
      split <;> simp only [work, hpc, record, pcWork] <;> omega
  · next hpc =>
      split <;> simp only [work, hpc, record, pcWork] <;> omega
  · next hpc =>
      simp only [work, hpc, record, pcWork]
      omega

/-- When the worker is joined nothing is left to do. -/
theorem work_close : (w.close store linkFails).work = 0 := by
  have hsteps : ∀ n (w : Restoring), (steps store linkFails n w).work ≤ w.work - n := by
    intro n
    induction n with
    | zero => exact fun w => le_rfl
    | succ n ih =>
        intro w
        have hfirst : (w.workerStep store linkFails).work ≤ w.work - 1 := work_workerStep linkFails
        have hrest := ih (w.workerStep store linkFails)
        rw [steps]
        omega
  have := hsteps w.work w
  rw [Nat.sub_self] at this
  exact Nat.le_zero.mp this

/-- A joined worker is idle. -/
theorem close_ready : (w.close store linkFails).pc = .ready := by
  have hdone : (w.close store linkFails).work = 0 := work_close linkFails
  unfold work at hdone
  have hpc : pcWork (w.close store linkFails).pc = 0 := by omega
  cases hat : (w.close store linkFails).pc with
  | ready => rfl
  | lstat => rw [hat] at hpc; cases hpc
  | link => rw [hat] at hpc; cases hpc
  | rename => rw [hat] at hpc; cases hpc
  | unlink => rw [hat] at hpc; cases hpc

end Steps

-- ============================================================================
-- Transparency
-- ============================================================================

section Transparency

variable (store : StoreDirConfig) (linkFails : NodePath → Bool) (threaded : Bool)

/-- Nothing is at the destination, and the worker is idle. -/
structure Starts (w : Restoring) : Prop where
  empty : ∀ q, w.fs.names (.inside q) = none
  events : w.events = []
  pc : w.pc = .ready

/-- Every entry of the link farm is a regular file that hashes to its name. -/
def FarmInvariant (fs : Fs Place Object) : Prop :=
  ∀ h e, fs.names (.farm h) = some e → ∃ i executable contents, e = .object i ∧
    fs.inodes i = .regular executable contents ∧
    (store.hashString .sha256 (fileNar executable contents)).1 = h

/-- No file of a tree has the hash of another file in the farm. -/
def CollisionFree (fs : Fs Place Object) (f : File) : Prop :=
  ∀ q executable contents h i executable' contents',
    f.view q = some (.object (.regular executable contents)) →
    fs.names (.farm h) = some (.object i) → fs.inodes i = .regular executable' contents' →
    store.hashString .sha256 (fileNar executable contents)
      = store.hashString .sha256 (fileNar executable' contents') →
    Object.regular executable' contents' = .regular executable contents

/-- A restore with streaming dedup succeeds exactly if a plain one does, leaves
    the same tree, and changes nothing else. -/
structure Transparent (source : Bytes) (w₀ : Restoring) : Prop where
  succeeds : (∃ r, restorePathCapturingHashes store linkFails threaded source w₀ = .ok r) ↔
    ∃ nar, (restorePath source).2 = .ok nar
  leaves : ∀ rest w,
    restorePathCapturingHashes store linkFails threaded source w₀ = .ok (rest, w) →
    ∃ f nar, restorePath source = (some f, .ok nar) ∧ source = nar ++ rest ∧
      (∀ q, w.fs.read (.inside q) = f.view q) ∧
      w.fs.names .beside = w₀.fs.names .beside ∧
      (∀ h, w.fs.names (.farm h) = w₀.fs.names (.farm h)) ∧
      ∀ i, i < w₀.fs.next → w.fs.inodes i = w₀.fs.inodes i

variable {store linkFails threaded}

theorem restorePath_encode {source nar : Bytes} {f : File} :
    restorePath source = (some f, .ok nar) ↔ f.WithinLimits narMaxDepth ∧
      nar = writeString narVersionMagic1 ++ f.toNar.encode ∧ nar <+: source := by
  rw [restorePath_eq_ok]
  constructor
  · rintro ⟨f', heq, hlim, hdump, hstart⟩
    cases heq
    rw [NarNode.dumpPath_eq_ok hlim] at hdump
    exact ⟨hlim, (Except.ok.inj hdump).symm, hstart⟩
  · rintro ⟨hlim, rfl, hstart⟩
    exact ⟨f, rfl, hlim, NarNode.dumpPath_eq_ok hlim, hstart⟩

/-- A restore with streaming dedup makes the calls for the tree of the archive
    that the source starts with. -/
theorem restorePathCapturingHashes_eq_ok {source rest : Bytes} {w₀ w : Restoring} :
    restorePathCapturingHashes store linkFails threaded source w₀ = .ok (rest, w) ↔
      ∃ f nar w', restorePath source = (some f, .ok nar) ∧ source = nar ++ rest ∧
        runCalls (fileHashingSink store linkFails threaded) (NarNode.calls [] f.toNar) w₀ = .ok w' ∧
        w = w'.close store linkFails := by
  unfold restorePathCapturingHashes
  simp only [NixStore.bind_eq_ok, pure_eq_ok, Except.ok.injEq, Prod.mk.injEq, Prod.exists,
    NarNode.parseDump_eq_runCalls (show (fileHashingSink store linkFails threaded).skipContents
      = false from rfl)]
  constructor
  · rintro ⟨rest', w', ⟨f, hlim, rfl, hrun⟩, rfl, rfl⟩
    refine ⟨f, _, w', restorePath_encode.mpr ⟨hlim, rfl, ?_⟩, ?_, hrun, rfl⟩
    · rw [← List.append_assoc]
      exact List.prefix_append _ _
    · rw [List.append_assoc]
  · rintro ⟨f, nar, w', hrestore, rfl, hrun, rfl⟩
    obtain ⟨hlim, rfl, -⟩ := restorePath_encode.mp hrestore
    exact ⟨rest, w', ⟨f, hlim, List.append_assoc _ _ _, hrun⟩, rfl, rfl⟩

/-- Before the first call nothing is built. -/
theorem Starts.builds {files : Bool → Bytes → Prop} {w₀ : Restoring} (h : Starts w₀) :
    Builds store files w₀.fs ⟨fun _ => none, none⟩ w₀ := by
  have hpending : w₀.pending = [] := by
    rw [pending, if_pos h.pc, h.events]
    rfl
  refine ⟨le_rfl, fun _ _ => rfl, fun _ => rfl, ?_, ?_, fun _ => rfl, ?_, ?_, ?_, trivial⟩
  · rw [h.pc]
    decide
  · intro hat
    rw [h.pc] at hat
    cases hat
  · intro q _ _
    rw [Fs.read, h.empty]
  · rw [hpending]
    exact fun j hj => absurd hj List.not_mem_nil
  · rw [hpending]
    exact List.nodup_nil

theorem farmAgrees_of {w₀ : Restoring} {f : File} (hfarm : FarmInvariant store w₀.fs)
    (hcollision : CollisionFree store w₀.fs f) :
    FarmAgrees store (fun e c => ∃ q, f.view q = some (.object (.regular e c))) w₀.fs := by
  rintro executable contents i ⟨q, hq⟩ hname
  obtain ⟨i', e', c', hobject, hinode, hhash⟩ := hfarm _ _ hname
  cases hobject
  rw [hinode]
  exact hcollision q executable contents _ i e' c' hq hname hinode (Subtype.ext hhash.symm)

/-- The calls for a tree build it. -/
theorem seqRun_tree {f : File} (hlim : f.WithinLimits narMaxDepth) {l : List Call}
    (hfeeds : NarNode.Feeds [] f.toNar l) :
    SeqRun (fun e c => ∃ q, f.view q = some (.object (.regular e c))) ⟨fun _ => none, none⟩ l
      ⟨f.view, none⟩ := by
  have hlegal := NarNode.legal_toNar.mpr hlim
  have hfiles : ∀ a ∈ f.toNar.files, ∃ q, f.view q = some (.object (.regular a.1 a.2)) := by
    intro a ha
    obtain ⟨q, hq⟩ := NarNode.view_of_mem_files hlegal ha
    rw [NarNode.toFile_toNar] at hq
    exact ⟨q, hq⟩
  have hview : View.graft (fun _ => none) [] f.toNar.toFile = f.view := by
    funext q
    rw [View.graft, if_pos List.nil_prefix, NarNode.toFile_toNar]
    rfl
  have hrun : SeqRun (fun e c => ∃ q, f.view q = some (.object (.regular e c)))
      ⟨fun _ => none, none⟩ l _ :=
    NarNode.seqRun_feeds hlegal hfiles (fun _ => rfl) (Or.inl rfl) hfeeds
  rw [hview] at hrun
  exact hrun

/-- The archive has no entry whose name is that of a file with `.dedup~`
    behind it. -/
def NoTempNames (f : File) : Prop :=
  ∀ k p executable contents, f.view k = some (.object (.regular executable contents)) →
    (f.view p).isSome → dedupName k ≠ .inside p

/-- Without such names the worker's link is never in the way. -/
theorem undisturbed_of_noTempNames {files : Bool → Bytes → Prop} {fs₀ : Fs Place Object}
    (hagrees : FarmAgrees store files fs₀) {b : Built} {f : File} {l : List Call} {w : Restoring}
    (hrun : SeqRun files b l ⟨f.view, none⟩) (hno : NoTempNames f)
    (h : Builds store files fs₀ b w) : Undisturbed store linkFails threaded l w := by
  generalize hend : (⟨f.view, none⟩ : Built) = b' at hrun
  induction hrun generalizing w with
  | nil => trivial
  | @cons b b₁ b' c rest hstep hrest ih =>
      have hfree : ∀ path, c.created = some path →
          ¬ (w.turn store linkFails).Holds (.inside path) := by
        rintro path hcreated ⟨hpc, hname⟩
        obtain ⟨hclosed, hshown⟩ := hstep.shows_created hcreated
        have hinv : Inv store files fs₀ b.view .closed w := by
          rw [Builds, hclosed] at h
          exact h
        have hturn : Inv store files fs₀ b.view .closed (w.turn store linkFails) :=
          hinv.turn hagrees
        obtain ⟨⟨e, d, hview, -⟩, -⟩ := hturn.jobs (w.turn store linkFails).job (by
          rw [pending, if_neg (by rw [hpc]; decide)]
          exact List.mem_cons_self)
        have hwhole := SeqRun.cons hstep hrest
        rw [← hend] at hrest hwhole
        obtain ⟨e', d', hfile⟩ := (hwhole.grows _).2 ⟨e, d, hview⟩
        exact hno _ path e' d' hfile ((hrest.grows path).1 hshown) hname
      refine ⟨hfree, fun w' hw' => ?_⟩
      obtain ⟨w₁, hcall, hbuilds⟩ := call_ok linkFails threaded hagrees h hstep hfree
      rw [hcall] at hw'
      cases hw'
      exact ih hbuilds hend

variable (store linkFails threaded) in
theorem transparent_iff_undisturbed (source : Bytes) (w₀ : Restoring)
    (hstart : Starts w₀) (hfarm : FarmInvariant store w₀.fs)
    (hcollision : ∀ f nar, restorePath source = (some f, .ok nar) → CollisionFree store w₀.fs f) :
    Transparent store linkFails threaded source w₀ ↔
      ∀ f nar, restorePath source = (some f, .ok nar) →
        Undisturbed store linkFails threaded (NarNode.calls [] f.toNar) w₀ := by
  -- what the calls for the tree of an archive leave
  have hcalls : ∀ f nar, restorePath source = (some f, .ok nar) →
      ((∃ w', runCalls (fileHashingSink store linkFails threaded) (NarNode.calls [] f.toNar) w₀
          = .ok w') ↔ Undisturbed store linkFails threaded (NarNode.calls [] f.toNar) w₀) ∧
      ∀ w', runCalls (fileHashingSink store linkFails threaded) (NarNode.calls [] f.toNar) w₀
          = .ok w' →
        Inv store (fun e c => ∃ q, f.view q = some (.object (.regular e c))) w₀.fs f.view .closed
          (w'.close store linkFails) := by
    intro f nar hrestore
    have hagrees := farmAgrees_of hfarm (hcollision f nar hrestore)
    obtain ⟨f', heq, hlim, -, -⟩ := restorePath_eq_ok.mp hrestore
    cases heq
    have hseq := seqRun_tree hlim (NarNode.feeds_calls [] f.toNar)
    obtain ⟨hiff, hafter⟩ := runCalls_iff linkFails threaded hagrees hseq hstart.builds
    refine ⟨hiff, fun w' hw' => ?_⟩
    exact steps_keep (fun w hw => workerStep_inv hagrees hw) _ (hafter w' hw')
  constructor
  · intro h f nar hrestore
    obtain ⟨⟨rest, w⟩, hrun⟩ := h.succeeds.mpr ⟨nar, by rw [hrestore]⟩
    obtain ⟨f', nar', w', hrestore', -, hcall, -⟩ := restorePathCapturingHashes_eq_ok.mp hrun
    rw [hrestore] at hrestore'
    cases hrestore'
    exact (hcalls f nar hrestore).1.mp ⟨w', hcall⟩
  · intro h
    refine ⟨⟨?_, ?_⟩, ?_⟩
    · rintro ⟨⟨rest, w⟩, hrun⟩
      obtain ⟨f, nar, -, hrestore, -, -, -⟩ := restorePathCapturingHashes_eq_ok.mp hrun
      exact ⟨nar, by rw [hrestore]⟩
    · rintro ⟨nar, hnar⟩
      have hpair : restorePath source = ((restorePath source).1, .ok nar) := Prod.ext rfl hnar
      obtain ⟨f, hf, -, -, rest, hrest⟩ := restorePath_eq_ok.mp hpair
      have hrestore : restorePath source = (some f, .ok nar) := hpair.trans (by rw [hf])
      obtain ⟨w', hcall⟩ := (hcalls f nar hrestore).1.mpr (h f nar hrestore)
      exact ⟨(rest, w'.close store linkFails),
        restorePathCapturingHashes_eq_ok.mpr ⟨f, nar, w', hrestore, hrest.symm, hcall, rfl⟩⟩
    · intro rest w hrun
      obtain ⟨f, nar, w', hrestore, hsplit, hcall, rfl⟩ := restorePathCapturingHashes_eq_ok.mp hrun
      have hinv := (hcalls f nar hrestore).2 w' hcall
      have hready : ∀ k, ¬ (w'.close store linkFails).Holds k := by
        rintro k ⟨hpc, -⟩
        rw [close_ready] at hpc
        cases hpc
      exact ⟨f, nar, hrestore, hsplit, fun q => hinv.shows q nofun (hready _),
        hinv.beside (hready _), hinv.farm, hinv.old⟩

variable (store linkFails threaded) in
/-- In a run of the two threads, streaming dedup is transparent exactly if no
    entry of the archive is created while the worker's temporary link has its
    name.  This is so in every run if no directory of the archive has a regular
    file and an entry with the name of the file and `.dedup~`. -/
theorem restorePathCapturingHashes_transparent_iff (source : Bytes) (w₀ : Restoring)
    (hstart : Starts w₀) (hfarm : FarmInvariant store w₀.fs)
    (hcollision : ∀ f nar, restorePath source = (some f, .ok nar) → CollisionFree store w₀.fs f) :
    (Transparent store linkFails threaded source w₀ ↔
      ∀ f nar, restorePath source = (some f, .ok nar) →
        Undisturbed store linkFails threaded (NarNode.calls [] f.toNar) w₀) ∧
    ((∀ f nar, restorePath source = (some f, .ok nar) → NoTempNames f) →
      Transparent store linkFails threaded source w₀) := by
  have hiff := transparent_iff_undisturbed store linkFails threaded source w₀ hstart hfarm hcollision
  refine ⟨hiff, fun hno => hiff.mpr fun f nar hrestore => ?_⟩
  obtain ⟨f', heq, hlim, -, -⟩ := restorePath_eq_ok.mp hrestore
  cases heq
  exact undisturbed_of_noTempNames (farmAgrees_of hfarm (hcollision f nar hrestore))
    (seqRun_tree hlim (NarNode.feeds_calls _ _)) (hno f nar hrestore) hstart.builds

end Transparency

namespace Sample

open DiskStore.Sample (measured plainNar)

/-- The farm entry of the file with contents `x`. -/
def farmHash : Hash := (measured.hashString .sha256 (fileNar false (ascii "x"))).1

/-- A file system with nothing but that farm entry. -/
def farmOnly : Fs Place Object where
  names := fun k => if k = .farm farmHash then some (.object 0) else none
  inodes := fun _ => .regular false (ascii "x")
  next := 1
  allocated := by
    intro k i h
    split at h
    · cases h
      decide
    · cases h

/-- A restore that starts there. -/
def start (turns : List Nat) : Restoring where
  fs := farmOnly
  fd := 0
  buffer := []
  events := []
  job := ⟨[], [], 0⟩
  pc := .ready
  files := []
  dedupedFiles := 0
  dedupedBytes := 0
  turns := turns

theorem starts_start (turns : List Nat) : Starts (start turns) :=
  ⟨fun _ => rfl, rfl, rfl⟩

theorem farmInvariant_start (turns : List Nat) : FarmInvariant measured (start turns).fs := by
  intro h e hname
  have hat : h = farmHash ∧ e = .object 0 := by
    change (if Place.farm h = .farm farmHash then some (Entry.object 0) else none) = some e at hname
    split at hname
    · next heq => exact ⟨Place.farm.inj heq, (Option.some.inj hname).symm⟩
    · cases hname
  exact ⟨0, false, ascii "x", hat.2, rfl, hat.1.symm⟩

/-- A tree whose only regular file holds `x` collides with nothing there. -/
theorem collisionFree_start (turns : List Nat) {f : File}
    (h : ∀ q executable contents, f.view q = some (.object (.regular executable contents)) →
      Object.regular executable contents = .regular false (ascii "x")) :
    CollisionFree measured (start turns).fs f := by
  intro q executable contents hash i executable' contents' hq _ hinode _
  rw [h q executable contents hq]
  exact hinode.symm

/-- A file, and a symlink with the name of its temporary link. -/
def clashing : File :=
  .directory [(ascii "a", .regular false (ascii "x")), (ascii "a.dedup~", .symlink (ascii "a"))]

/-- Its archive. -/
def clashingNar : Bytes :=
  match dumpPath NarNode.plain defaultPathFilter clashing with
  | .ok nar => nar
  | .error _ => []

/-- The worker lags until the symlink is about to be made, and gets as far as
    its link then. -/
def lagging : List Nat := [0, 0, 0, 0, 0, 0, 0, 0, 6]

theorem restorePath_clashingNar : restorePath clashingNar = (some clashing, .ok clashingNar) := by
  refine restorePath_eq_ok.mpr ⟨_, rfl, ?_, by decide +kernel, List.prefix_refl _⟩
  refine ⟨by decide, .cons (fun e he => ?_) (.cons nofun .nil), ?_⟩
  · cases List.mem_singleton.mp he
    decide
  refine ⟨by decide, by decide, ⟨by decide, by decide⟩, ?_⟩
  exact ⟨by decide, by decide, ⟨by decide, by decide, by decide, by decide⟩, trivial⟩

theorem restorePath_plainNar : restorePath (plainNar (ascii "x"))
    = (some (.regular false (ascii "x")), .ok (plainNar (ascii "x"))) := by
  refine restorePath_eq_ok.mpr ⟨_, rfl, ?_, by decide +kernel, List.prefix_refl _⟩
  exact ⟨by decide, by decide⟩

/-- A regular file has no name but its own. -/
theorem view_plain {executable : Bool} {contents : Bytes} {q : NodePath} {n : Node Object}
    (h : (File.regular executable contents).view q = some n) :
    q = [] ∧ n = .object (.regular executable contents) := by
  cases q with
  | nil => exact ⟨rfl, (Option.some.inj h).symm⟩
  | cons name q => cases h

theorem view_clashing {q : NodePath} {executable : Bool} {contents : Bytes}
    (h : clashing.view q = some (.object (.regular executable contents))) :
    Object.regular executable contents = .regular false (ascii "x") := by
  cases q with
  | nil => cases h
  | cons name q =>
      change Option.map File.node ((SortedMap.find? name _).bind (File.at? q)) = _ at h
      rw [SortedMap.find?, SortedMap.find?, SortedMap.find?] at h
      split at h
      · exact Node.object.inj (view_plain h).2
      · split at h
        · cases q with
          | nil => cases h
          | cons name q => cases h
        · cases h

end Sample

theorem restorePathCapturingHashes_transparent_oneFile :
    Starts (Sample.start []) ∧ FarmInvariant DiskStore.Sample.measured (Sample.start []).fs ∧
    Transparent DiskStore.Sample.measured (fun _ => false) true
      (DiskStore.Sample.plainNar (ascii "x")) (Sample.start []) := by
  refine ⟨Sample.starts_start [], Sample.farmInvariant_start [],
    (restorePathCapturingHashes_transparent_iff DiskStore.Sample.measured (fun _ => false) true _ _
      (Sample.starts_start []) (Sample.farmInvariant_start []) ?_).2 ?_⟩
  · intro f nar h
    rw [Sample.restorePath_plainNar] at h
    cases h
    refine Sample.collisionFree_start [] fun q executable contents hq => ?_
    exact Node.object.inj (Sample.view_plain hq).2
  · intro f nar h
    rw [Sample.restorePath_plainNar] at h
    cases h
    intro k p executable contents hk hp
    rw [(Sample.view_plain hk).1]
    nofun

/-- An archive with a name that ends in `.dedup~`, restored where the farm has
    the file beside it. -/
theorem restorePathCapturingHashes_disturbed :
    Starts (Sample.start Sample.lagging) ∧
    FarmInvariant DiskStore.Sample.measured (Sample.start Sample.lagging).fs ∧
    CollisionFree DiskStore.Sample.measured (Sample.start Sample.lagging).fs Sample.clashing ∧
    ¬ Transparent DiskStore.Sample.measured (fun _ => false) true Sample.clashingNar
      (Sample.start Sample.lagging) := by
  refine ⟨Sample.starts_start _, Sample.farmInvariant_start _,
    Sample.collisionFree_start _ fun q executable contents hq => ?_, fun h => ?_⟩
  · exact Sample.view_clashing hq
  · obtain ⟨r, hrun⟩ := h.succeeds.mpr ⟨_, congrArg Prod.snd Sample.restorePath_clashingNar⟩
    have hfails : (restorePathCapturingHashes DiskStore.Sample.measured (fun _ => false) true
        Sample.clashingNar (Sample.start Sample.lagging)).isOk = false := by decide +kernel
    rw [hrun] at hfails
    cases hfails

end Restoring

end NixStore
