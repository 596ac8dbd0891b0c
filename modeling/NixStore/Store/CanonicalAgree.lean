/-
  NixStore.Store.CanonicalAgree

  A canonical restore whose root is stamped, and another restore that is walked
  afterwards, leave the same modes and times (`canonicalRestore_agrees`), if
  what the hasher links from the farm has those of the store already, as
  `tryDedup` takes for granted (`FarmReady`).

  Both leave what a node of the store has (`importTree_stat`): the canonical
  restore because an inode is finished when its file is and a directory when
  nothing touches it any more, the other one because the walk comes to every
  path and what is canonical stays so (`Canonised.keeps`).
-/

import NixStore.Store.CanonicalDirectories
import NixStore.Store.CanonicalWalk

namespace NixStore

namespace Stamping

section

variable {store : StoreDirConfig} {linkFails : NodePath → Bool} {clock : Nat → Int}
  {o : RestoreOptions} {readdir : NodePath → List Bytes} {f : File} {s s' : Stamping} {q : NodePath}

-- ============================================================================
-- What a restore leaves
-- ============================================================================

/-- The names and contents are those that the parser of the archive leaves. -/
theorem restoreTree_parses {f : File} {source nar rest : Bytes}
    (hsource : restorePath source = (some f, .ok nar)) (hsplit : source = nar ++ rest)
    (hrun : s.restoreTree store linkFails clock o f = .ok s') :
    ∃ w, parseDump NarNode.plain (Restoring.sinkFor store linkFails o.hasher) source s.w
        = .ok (rest, w) ∧
      s'.w = if o.hasher.isSome then w.close store linkFails else w := by
  obtain ⟨s₁, hevents, hs⟩ := bind_eq_ok.mp hrun
  obtain ⟨hlim, rfl, -⟩ := Restoring.restorePath_encode.mp hsource
  have hcalls := runEvents_w hevents
  rw [NarNode.calls_of_events] at hcalls
  refine ⟨s₁.w, (NarNode.parseDump_eq_runCalls rfl).mpr ⟨f, hlim, ?_, hcalls⟩, ?_⟩
  · rw [hsplit, List.append_assoc]
  · cases hhasher : o.hasher with
    | none =>
        rw [hhasher] at hs
        cases hs
        rfl
    | some threaded =>
        rw [hhasher] at hs
        cases hs
        have hw := (stampDeferred_keeps (s₁.close store linkFails clock)).1
        rw [close_w] at hw
        exact hw

/-- A restore with a hasher is `restorePathCapturingHashes`. -/
theorem restoreTree_capturing {f : File} {source nar rest : Bytes} {threaded : Bool}
    (hhasher : o.hasher = some threaded) (hsource : restorePath source = (some f, .ok nar))
    (hsplit : source = nar ++ rest) (hrun : s.restoreTree store linkFails clock o f = .ok s') :
    Restoring.restorePathCapturingHashes store linkFails threaded source s.w
      = .ok (rest, s'.w) := by
  obtain ⟨w, hparse, hw⟩ := restoreTree_parses hsource hsplit hrun
  rw [hhasher] at hparse hw
  rw [Restoring.sinkFor_some] at hparse
  rw [Restoring.restorePathCapturingHashes, hparse, hw]
  rfl

variable (store f) in
/-- What `tryDedup` takes for granted of the link farm: an entry is the regular
    file that its name says, with the mode and the time of one in the store. -/
structure FarmReady (s : Stamping) : Prop where
  invariant : Restoring.FarmInvariant store s.w.fs
  collisionFree : Restoring.CollisionFree store s.w.fs f
  canonical : ∀ h i, s.w.fs.names (.farm h) = some (.object i) →
    s.inode i = (Node.object (s.w.fs.inodes i)).metadata

variable (f s) in
/-- What a restore leaves: the tree, inodes that are finished, and directories
    that are stamped if it is a canonical one.  What was there before stays. -/
structure Restored (canonical : Bool) (s' : Stamping) : Prop where
  reads : ∀ q, s'.w.fs.read (.inside q) = f.view q
  finished : ∀ q i, s'.w.fs.names (.inside q) = some (.object i) →
    Finished canonical (s'.w.fs.inodes i) (s'.inode i)
  directories : canonical = true → ∀ q, q ≠ [] → f.view q = some .directory →
    s'.dir q = Node.directory.metadata
  farm : ∀ h, s'.w.fs.names (.farm h) = s.w.fs.names (.farm h)
  old : ∀ i, i < s.w.fs.next → s'.inode i = s.inode i ∧ s'.w.fs.inodes i = s.w.fs.inodes i

/-- The regular files of a tree. -/
def FileOf (f : File) (executable : Bool) (contents : Bytes) : Prop :=
  ∃ q, f.view q = some (.object (.regular executable contents))

theorem seqRun_events (hlim : f.WithinLimits narMaxDepth) :
    SeqRun (FileOf f) ⟨fun _ => none, none⟩
      ((NarNode.events [] f.toNar).filterMap SinkEvent.call?) ⟨f.view, none⟩ := by
  rw [NarNode.calls_of_events]
  exact Restoring.seqRun_tree hlim (NarNode.feeds_calls [] f.toNar)

variable (store) in
theorem starts_plain (hstart : Restoring.Starts s.w) :
    Plain store (FileOf f) s.w.fs ⟨fun _ => none, none⟩ s.w :=
  ⟨⟨hstart.pc, hstart.events⟩, hstart.builds⟩

/-- The directory shows the tree when the events are over. -/
theorem runEvents_inv (hstart : Restoring.Starts s.w) (hlim : f.WithinLimits narMaxDepth)
    (hfarm : o.hasher.isSome → FarmReady store f s)
    (hrun : runEvents store linkFails clock o (NarNode.events [] f.toNar) s = .ok s') :
    Restoring.Inv store (FileOf f) s.w.fs f.view .closed s'.w ∧
      (o.hasher = none → s'.w.pc = .ready) := by
  have hseq := seqRun_events hlim
  cases hhasher : o.hasher with
  | none =>
      obtain ⟨s₁, hrun₁, hplain⟩ := (starts_plain store hstart).run hhasher hseq
      rw [hrun] at hrun₁
      cases hrun₁
      exact ⟨hplain.2, fun _ => hplain.1.1⟩
  | some threaded =>
      have hready := hfarm (by rw [hhasher]; rfl)
      have hagrees : Restoring.FarmAgrees store (FileOf f) s.w.fs :=
        Restoring.farmAgrees_of hready.invariant hready.collisionFree
      have hcalls := runEvents_w hrun
      rw [hhasher] at hcalls
      have hcalled := (Restoring.runCalls_iff linkFails threaded hagrees hseq hstart.builds).2
      exact ⟨hcalled _ hcalls, nofun⟩

/-- An inode that has a name is finished when all files are. -/
theorem finished_of_linked (hfarm : o.hasher.isSome → FarmReady store f s)
    (hstamped : Stamped o s false s') (hlinked : Linked o.hasher s.w.fs s'.w) {q : NodePath}
    {i : Nat} (hname : s'.w.fs.names (.inside q) = some (.object i)) :
    Finished o.canonical (s'.w.fs.inodes i) (s'.inode i) := by
  rcases hlinked.inside q i hname with hnew | ⟨hhasher, hash, hold⟩
  · exact hstamped.finished i hnew (s'.w.fs.allocated _ _ hname) nofun
  · -- it was linked from the farm
    obtain ⟨hstat, hobject⟩ := hstamped.old i (s.w.fs.allocated _ _ hold)
    have hcanonical := (hfarm hhasher).canonical hash i hold
    rw [hstat, hobject, hcanonical]
    exact ⟨agrees_metadata _, fun _ => rfl⟩

/-- What holds when all files have ended and the worker is idle. -/
theorem restored_of_idle (hfarm : o.hasher.isSome → FarmReady store f s)
    (hinv : Restoring.Inv store (FileOf f) s.w.fs f.view .closed s'.w) (hidle : s'.w.pc = .ready)
    (hstamped : Stamped o s false s') (hlinked : Linked o.hasher s.w.fs s'.w)
    (hdirectories : o.canonical = true → ∀ q, q ≠ [] → f.view q = some .directory →
      s'.dir q = Node.directory.metadata) : Restored f s o.canonical s' where
  reads q := hinv.shows q nofun fun hholds => by
    have hat := hholds.1
    rw [hidle] at hat
    cases hat
  finished q i hname := finished_of_linked hfarm hstamped hlinked hname
  directories := hdirectories
  farm := hinv.farm
  old := hstamped.old

theorem restoreTree_restored (hstart : Restoring.Starts s.w) (hlim : f.WithinLimits narMaxDepth)
    (hfarm : o.hasher.isSome → FarmReady store f s)
    (hrun : s.restoreTree store linkFails clock o f = .ok s') : Restored f s o.canonical s' := by
  have hdirectories := fun hcanonical q hq hview => restoreTree_dir (q := q) hlim hcanonical hrun hq
    hview
  obtain ⟨s₁, hevents, hs⟩ := bind_eq_ok.mp hrun
  obtain ⟨hinv, hidle⟩ := runEvents_inv (s := { s with deferred := [] }) hstart hlim
    (fun h => ⟨(hfarm h).1, (hfarm h).2, (hfarm h).3⟩) hevents
  have hstamped : Stamped o { s with deferred := [] } false s₁ :=
    stamped_start.run (seqRun_events hlim) hevents
  have hlinked : Linked o.hasher s.w.fs s₁.w :=
    (linked_start hstart.empty rfl hstart.pc).run
      (runEvents_w (s := { s with deferred := [] }) hevents)
  cases hhasher : o.hasher with
  | none =>
      rw [hhasher] at hs
      cases hs
      exact restored_of_idle hfarm hinv (hidle hhasher) ⟨hstamped.1, hstamped.2, hstamped.3,
        hstamped.4⟩ hlinked hdirectories
  | some threaded =>
      have hready := hfarm (by rw [hhasher]; rfl)
      have hagrees : Restoring.FarmAgrees store (FileOf f) s.w.fs :=
        Restoring.farmAgrees_of hready.invariant hready.collisionFree
      obtain ⟨hw, hworked, -⟩ := stampDeferred_keeps (s₁.close store linkFails clock)
      have hjoined := hstamped.worked ((worked_steps s₁.w.work).trans hworked)
      rw [close_w] at hw
      rw [hhasher] at hs
      cases hs
      refine restored_of_idle hfarm ?_ ?_ ?_ ?_ hdirectories
      · rw [hw]
        exact Restoring.steps_keep (fun _ h => Restoring.workerStep_inv hagrees h) _ hinv
      · rw [hw]
        exact Restoring.close_ready linkFails
      · exact ⟨hjoined.1, hjoined.2, hjoined.3, hjoined.4⟩
      · rw [hw]
        exact Restoring.steps_keep (fun _ h => h.workerStep (by rw [hhasher]; rfl)) _ hlinked

-- ============================================================================
-- Imports
-- ============================================================================

theorem canonicalAt_of_none (h : s.w.fs.names (.inside q) = none) : s.CanonicalAt q := by
  unfold CanonicalAt
  rw [stat_none h, Fs.read, h]
  rfl

/-- After a canonical restore only the root may be left to do. -/
theorem Restored.canonicalAt (h : Restored f s true s') (hq : q ≠ []) : s'.CanonicalAt q := by
  cases hname : s'.w.fs.names (.inside q) with
  | none => exact canonicalAt_of_none hname
  | some e =>
      cases e with
      | directory =>
          refine (canonicalAt_directory hname).mpr (h.directories rfl q hq ?_)
          rw [← h.reads, Fs.read, hname]
      | object i => exact (canonicalAt_object hname).mpr ((h.finished q i hname).2 rfl)

/-- After the restore the import succeeds, and everything is canonical. -/
theorem importTree_canonical (hlim : f.WithinLimits narMaxDepth)
    (hrun : s.restoreTree store linkFails clock o f = .ok s')
    (hrestored : Restored f s o.canonical s') (hlists : o.canonical = false → Lists readdir s') :
    ∃ t, s.importTree store linkFails clock o readdir f = .ok t ∧ Canonised s' t ∧
      ∀ q, t.CanonicalAt q := by
  have hagree : s'.AllAgree := fun q i hname => (hrestored.finished q i hname).1
  have hroot : s'.w.fs.names (.inside []) ≠ none := (isSome_view hrestored.reads).mp rfl
  cases hcanonical : o.canonical with
  | true =>
      rw [hcanonical] at hrestored
      obtain ⟨t, hstep, hcanonised, hat⟩ :=
        canonicaliseTimestampAndPermissions_canonical hagree hroot
      refine ⟨t, ?_, hcanonised, fun q => ?_⟩
      · rw [importTree, hrun, ok_bind, if_pos hcanonical]
        exact hstep
      · by_cases hq : q = []
        · rw [hq]
          exact hat
        · exact hcanonised.keeps (hrestored.canonicalAt hq)
  | false =>
      have hdepth : ∀ r, (f.view ([] ++ r)).isSome → r.length < narMaxDepth := by
        intro r hr
        rw [List.nil_append, File.view, Option.isSome_map] at hr
        exact hlim.length_lt (Option.some_get hr).symm
      have hthere : (f.view []).isSome := rfl
      obtain ⟨t, hwalk, hcanonised, hat⟩ := canonicalisePathMetaData_canonical hrestored.reads
        (hlists hcanonical) hagree hthere hdepth
      refine ⟨t, ?_, hcanonised, fun q => ?_⟩
      · rw [importTree, hrun, ok_bind, if_neg (by rw [hcanonical]; decide)]
        exact hwalk
      · by_cases hq : (f.view q).isSome
        · exact hat q hq
        · rw [isSome_view hrestored.reads, not_not] at hq
          refine canonicalAt_of_none ?_
          rw [hcanonised.w]
          exact hq

/-- What `lstat` says after an import, whichever way it was done. -/
theorem importTree_stat (hstart : Restoring.Starts s.w) (hlim : f.WithinLimits narMaxDepth)
    (hfarm : o.hasher.isSome → FarmReady store f s)
    (hlists : ∀ t, s.restoreTree store linkFails clock o f = .ok t → o.canonical = false →
      Lists readdir t)
    (hrun : s.importTree store linkFails clock o readdir f = .ok s') :
    ∀ q, s'.stat q = (f.view q).map Node.metadata := by
  obtain ⟨t, hrestore, -⟩ := bind_eq_ok.mp hrun
  have hrestored := restoreTree_restored hstart hlim hfarm hrestore
  obtain ⟨t', hrun', hcanonised, hat⟩ :=
    importTree_canonical hlim hrestore hrestored (hlists t hrestore)
  rw [hrun] at hrun'
  cases hrun'
  intro q
  rw [← hrestored.reads, ← hcanonised.w]
  exact hat q

/-- An import leaves the link farm as ready as it was. -/
theorem FarmReady.importTree {g : File} (hready : FarmReady store f s) (hg : FarmReady store g s)
    (hstart : Restoring.Starts s.w) (hlim : f.WithinLimits narMaxDepth)
    (hlists : ∀ t, s.restoreTree store linkFails clock o f = .ok t → o.canonical = false →
      Lists readdir t)
    (hrun : s.importTree store linkFails clock o readdir f = .ok s') : FarmReady store g s' := by
  obtain ⟨t, hrestore, -⟩ := bind_eq_ok.mp hrun
  have hrestored := restoreTree_restored hstart hlim (fun _ => hready) hrestore
  obtain ⟨t', hrun', hcanonised, -⟩ :=
    importTree_canonical hlim hrestore hrestored (hlists t hrestore)
  rw [hrun] at hrun'
  cases hrun'
  have hnames : ∀ h, s'.w.fs.names (.farm h) = s.w.fs.names (.farm h) := by
    rw [hcanonised.w]
    exact hrestored.farm
  have hold : ∀ h i, s.w.fs.names (.farm h) = some (.object i) →
      t.inode i = s.inode i ∧ s'.w.fs.inodes i = s.w.fs.inodes i := by
    intro h i hname
    rw [hcanonised.w]
    exact hrestored.old i (s.w.fs.allocated _ _ hname)
  refine ⟨fun h e hname => ?_, fun q executable contents h i e' c' hq hname hinode => ?_,
    fun h i hname => ?_⟩
  · rw [hnames] at hname
    obtain ⟨i, executable, contents, rfl, hinode, hhash⟩ := hg.invariant h e hname
    refine ⟨i, executable, contents, rfl, ?_, hhash⟩
    rw [(hold h i hname).2]
    exact hinode
  · rw [hnames] at hname
    rw [(hold h i hname).2] at hinode
    exact hg.collisionFree q executable contents h i e' c' hq hname hinode
  · rw [hnames] at hname
    obtain ⟨hstat, hobject⟩ := hold h i hname
    rw [hobject]
    rcases hcanonised.inode i with hsame | hcanonical
    · rw [hsame, hstat]
      exact hg.canonical h i hname
    · rw [hcanonical, ← hcanonised.w, hobject]

/-- Without a hasher every import of a tree within the limits succeeds. -/
theorem importTree_succeeds (hplain : o.hasher = none) (hstart : Restoring.Starts s.w)
    (hlim : f.WithinLimits narMaxDepth)
    (hlists : ∀ t, s.restoreTree store linkFails clock o f = .ok t → o.canonical = false →
      Lists readdir t) :
    ∃ t, s.importTree store linkFails clock o readdir f = .ok t := by
  have hnone : o.hasher.isSome → FarmReady store f s := by
    rw [hplain]
    nofun
  have hruns : ∃ s₁, runEvents store linkFails clock o (NarNode.events [] f.toNar)
      { s with deferred := [] } = .ok s₁ ∧
        Plain store (FileOf f) s.w.fs ⟨f.view, none⟩ s₁.w :=
    Plain.run hplain (seqRun_events hlim) (starts_plain store hstart)
  obtain ⟨s₁, hevents, -⟩ := hruns
  have hrestore : s.restoreTree store linkFails clock o f = .ok s₁ := by
    rw [restoreTree, hevents, ok_bind, hplain]
    rfl
  obtain ⟨t, hrun, -⟩ := importTree_canonical hlim hrestore
    (restoreTree_restored hstart hlim hnone hrestore) (hlists s₁ hrestore)
  exact ⟨t, hrun⟩

-- ============================================================================
-- Two imports
-- ============================================================================

end

/-- What an import does not decide: the time, which links fail, how the two
    threads take turns, how directories are listed, and whether there is a
    hasher. -/
structure Circumstances where
  clock : Nat → Int
  linkFails : NodePath → Bool
  turns : List Nat
  readdir : NodePath → List Bytes
  hasher : Option Bool

/-- The options of a restore in such circumstances. -/
def Circumstances.options (c : Circumstances) (canonical : Bool) (umask : Perms) :
    RestoreOptions where
  canonical := canonical
  umask := umask
  hasher := c.hasher

/-- The worker will take these turns. -/
def withTurns (turns : List Nat) (s : Stamping) : Stamping :=
  { s with w := { s.w with turns } }

section

variable (store : StoreDirConfig) (c : Circumstances) (canonical : Bool) (umask : Perms)

def restoreUnder (f : File) (s : Stamping) : Except Error Stamping :=
  (s.withTurns c.turns).restoreTree store c.linkFails c.clock (c.options canonical umask) f

def importUnder (f : File) (s : Stamping) : Except Error Stamping :=
  (s.withTurns c.turns).importTree store c.linkFails c.clock (c.options canonical umask) c.readdir f

/-- Directories are listed as the restore has left them. -/
def ListsRestored (f : File) (s : Stamping) : Prop :=
  ∀ t, restoreUnder store c canonical umask f s = .ok t → Lists c.readdir t

end

/-- Every node of a tree has the same mode bits and the time of the store, and
    there is nothing else. -/
structure SameMetadata (f : File) (t t' : Stamping) : Prop where
  same : ∀ q, t.stat q = t'.stat q
  nodes : ∀ q, (t.stat q).isSome ↔ (f.view q).isSome
  mtime : ∀ q m, t.stat q = some m → m.mtime = mtimeStore

theorem mtime_metadata (n : Node Object) : n.metadata.mtime = mtimeStore := by
  cases n with
  | directory => rfl
  | object o => cases o <;> rfl

/-- A restore of an archive with `canonical` whose root is stamped afterwards,
    and one without it that is walked afterwards, leave the same metadata,
    whatever the umask, the clock and the turns of the worker, if what a hasher
    links from the farm is canonical.  Without a hasher they succeed. -/
theorem canonicalRestore_agrees (store : StoreDirConfig) {source nar : Bytes} {f : File}
    (hsource : restorePath source = (some f, .ok nar)) (umask : Perms) (c c' : Circumstances)
    (s : Stamping) (hstart : Restoring.Starts s.w)
    (hfarm : c.hasher.isSome ∨ c'.hasher.isSome → FarmReady store f s)
    (hlists : ListsRestored store c' false umask f s) :
    (c.hasher = none → ∃ t, importUnder store c true umask f s = .ok t) ∧
    (c'.hasher = none → ∃ t', importUnder store c' false umask f s = .ok t') ∧
    ∀ t t', importUnder store c true umask f s = .ok t →
      importUnder store c' false umask f s = .ok t' → SameMetadata f t t' := by
  obtain ⟨hlim, -, -⟩ := Restoring.restorePath_encode.mp hsource
  have hready : ∀ turns, c.hasher.isSome ∨ c'.hasher.isSome →
      FarmReady store f (s.withTurns turns) := fun _ h =>
    ⟨(hfarm h).1, (hfarm h).2, (hfarm h).3⟩
  have hstarts : ∀ turns, Restoring.Starts (s.withTurns turns).w := fun _ =>
    ⟨hstart.1, hstart.2, hstart.3⟩
  refine ⟨fun hplain => ?_, fun hplain => ?_, fun t t' ht ht' => ?_⟩
  · exact importTree_succeeds hplain (hstarts _) hlim fun _ _ h => by cases h
  · exact importTree_succeeds hplain (hstarts _) hlim fun t ht _ => hlists t ht
  · have hstat := importTree_stat (hstarts _) hlim (fun h => hready _ (Or.inl h))
      (fun _ _ h => by cases h) ht
    have hstat' := importTree_stat (hstarts _) hlim (fun h => hready _ (Or.inr h))
      (fun t ht _ => hlists t ht) ht'
    refine ⟨fun q => (hstat q).trans (hstat' q).symm, fun q => ?_, fun q m hm => ?_⟩
    · rw [hstat, Option.isSome_map]
    · rw [hstat] at hm
      obtain ⟨n, -, rfl⟩ := Option.map_eq_some_iff.mp hm
      exact mtime_metadata n

namespace Sample

open DiskStore.Sample (measured)
open Restoring.Sample (farmOnly clashing)

/-- The destination is empty, and what is there has this mode and time. -/
def starting (fs : Fs Place Object) (m : Metadata) : Stamping where
  w := { Restoring.Sample.start [] with fs }
  inode := fun _ => m
  dir := fun _ => m
  madeExecutable := false
  deferred := []
  ticks := 0

/-- Time goes by, and every link can be made. -/
def unhindered (f : File) (turns : List Nat) (hasher : Option Bool) : Circumstances where
  clock := fun n => 1700000000 + n
  linkFails := fun _ => false
  turns := turns
  readdir := f.listing
  hasher := hasher

/-- The worker is done with the file before the symlink is made. -/
def inTime : Circumstances := unhindered clashing [0, 0, 0, 0, 0, 0, 0, 0, 9] (some true)

/-- The farm has `x` as it should. -/
def farmed : Stamping := starting farmOnly ⟨0o444#12, 1⟩

/-- The farm entry has been touched. -/
def touched : Stamping := starting farmOnly ⟨0o444#12, 1700000000⟩

/-- The farm has an executable file under the hash of one that is not. -/
def mislabelled : Stamping :=
  starting { farmOnly with inodes := fun _ => .regular true (ascii "x") } ⟨0o555#12, 1⟩

theorem ok_of_stat {x : Except Error Stamping} {q : NodePath} {m : Metadata}
    (h : x.toOption.map (·.stat q) = some (some m)) : ∃ t, x = .ok t ∧ t.stat q = some m := by
  cases x with
  | error e => cases h
  | ok t => exact ⟨t, rfl, Option.some.inj h⟩

/-- Without a hasher a listing of the tree is one of what is restored. -/
theorem listsRestored_plain (store : StoreDirConfig) {f : File} (hlim : f.WithinLimits narMaxDepth)
    (umask : Perms) {s : Stamping} (hstart : Restoring.Starts s.w) :
    ListsRestored store (unhindered f [] none) false umask f s := by
  intro t ht
  have hrestored := restoreTree_restored (s := s.withTurns []) ⟨hstart.1, hstart.2, hstart.3⟩ hlim
    (fun h => by cases h) ht
  exact lists_listing hrestored.reads

/-- One import links the file from the farm, another one does not use the
    farm, and they differ. -/
def Differs (s : Stamping) : Prop :=
  ListsRestored measured (unhindered clashing [] none) false 0o022#12 clashing s ∧
  ∃ t t', importUnder measured inTime true 0o022#12 clashing s = .ok t ∧
    importUnder measured (unhindered clashing [] none) false 0o022#12 clashing s = .ok t' ∧
    ¬ SameMetadata clashing t t'

theorem withinLimits_clashing : clashing.WithinLimits narMaxDepth :=
  (Restoring.restorePath_encode.mp Restoring.Sample.restorePath_clashingNar).1

theorem differs_of_stat {s : Stamping} (hstart : Restoring.Starts s.w) {q : NodePath}
    {m m' : Metadata} (hne : m ≠ m')
    (h : (importUnder measured inTime true 0o022#12 clashing s).toOption.map (·.stat q)
      = some (some m))
    (h' : (importUnder measured (unhindered clashing [] none) false 0o022#12 clashing
      s).toOption.map (·.stat q) = some (some m')) : Differs s := by
  obtain ⟨t, ht, hstat⟩ := ok_of_stat h
  obtain ⟨t', ht', hstat'⟩ := ok_of_stat h'
  refine ⟨listsRestored_plain _ withinLimits_clashing _ hstart, t, t', ht, ht', fun hsame => hne ?_⟩
  have heq := hsame.same q
  rw [hstat, hstat'] at heq
  exact Option.some.inj heq

end Sample

open Restoring.Sample Sample in
theorem canonicalRestore_agrees_clashing : ∃ t t',
    importUnder DiskStore.Sample.measured inTime true 0o077#12 clashing farmed = .ok t ∧
    importUnder DiskStore.Sample.measured (unhindered clashing [] none) false 0o077#12 clashing
      farmed = .ok t' ∧ SameMetadata clashing t t' := by
  have hstart : Restoring.Starts farmed.w := starts_start []
  have hready : FarmReady DiskStore.Sample.measured clashing farmed :=
    ⟨farmInvariant_start [], collisionFree_start [] fun q executable contents hq =>
      view_clashing hq, fun _ _ _ => rfl⟩
  obtain ⟨-, hplain, hsame⟩ := canonicalRestore_agrees DiskStore.Sample.measured
    restorePath_clashingNar 0o077#12 inTime (unhindered clashing [] none) farmed hstart
    (fun _ => hready) (listsRestored_plain _ withinLimits_clashing _ hstart)
  have hstat : (importUnder DiskStore.Sample.measured inTime true 0o077#12 clashing
      farmed).toOption.map (·.stat [ascii "a"]) = some (some ⟨0o444#12, 1⟩) := by
    decide +kernel
  obtain ⟨t, ht, -⟩ := ok_of_stat hstat
  obtain ⟨t', ht'⟩ := hplain rfl
  exact ⟨t, t', ht, ht', hsame t t' ht ht'⟩

open Restoring.Sample Sample in
/-- What is linked from the farm keeps the mode and the time that it has there,
    be it the time of a file that was touched, or the mode of another file. -/
theorem canonicalRestore_differs :
    restorePath clashingNar = (some clashing, .ok clashingNar) ∧
    (Restoring.Starts touched.w ∧
      Restoring.FarmInvariant DiskStore.Sample.measured touched.w.fs ∧
      Restoring.CollisionFree DiskStore.Sample.measured touched.w.fs clashing ∧ Differs touched) ∧
    (Restoring.Starts mislabelled.w ∧
      (∀ h i, mislabelled.w.fs.names (.farm h) = some (.object i) →
        mislabelled.inode i = (Node.object (mislabelled.w.fs.inodes i)).metadata) ∧
      Differs mislabelled) := by
  have htouched : Restoring.Starts touched.w := starts_start []
  have hmislabelled : Restoring.Starts mislabelled.w := ⟨fun _ => rfl, rfl, rfl⟩
  have hfree : Restoring.CollisionFree DiskStore.Sample.measured touched.w.fs clashing :=
    collisionFree_start [] fun q executable contents hq => view_clashing hq
  refine ⟨restorePath_clashingNar, ⟨htouched, farmInvariant_start [], hfree, ?_⟩, hmislabelled,
    fun _ _ _ => rfl, ?_⟩
  · exact differs_of_stat htouched (q := [ascii "a"])
      (show (⟨0o444#12, 1700000000⟩ : Metadata) ≠ ⟨0o444#12, 1⟩ by decide) (by decide +kernel)
      (by decide +kernel)
  · exact differs_of_stat hmislabelled (q := [ascii "a"])
      (show (⟨0o555#12, 1⟩ : Metadata) ≠ ⟨0o444#12, 1⟩ by decide) (by decide +kernel)
      (by decide +kernel)

end Stamping

end NixStore
