/-
  NixStore.Store.Importers

  Any number of processes in `addToStore` and `addToStoreFromDump`, and one
  collector after another (`libstore/local-store.cc`, `libstore/gc.cc`).

  Each process makes its path a temporary root (`NixStore.Store.TempRoots`), asks
  `isValidPath`, locks the path (`NixStore.Store.PathLocks`), asks the database
  again, deletes what is there, restores the tree and registers it.  These are
  the pieces that `NixStore.Store.AddToStore` and `NixStore.Store.AddFromDump`
  are made of; here others come between them.  The database and the store
  directory are shared, the path-info cache is each process's own.

  What a collector deletes is open, as in `NixStore.Store.TempRoots`.  Reading
  the stream of `addToStoreFromDump` into memory or into a temporary directory
  concerns nobody else.  `locksHeld` is always empty.
-/

import NixStore.Store.AddFromDump
import NixStore.Store.PathLocks
import NixStore.Store.TempRoots

namespace NixStore

open Effect OrderedSet Wire

-- ============================================================================
-- What is added
-- ============================================================================

namespace DiskStore

/-- The arguments of `addToStoreFromDump`, but `repair`. -/
structure DumpRequest where
  narBufferSize : Nat
  chunks : List Bytes
  turns : List Nat
  name : Bytes
  dumpMethod : FileSerialisationMethod
  hashMethod : ContentAddressMethod
  hashAlgo : HashAlgorithm
  references : Finset StorePath

/-- A stream that has been read, and the path computed for it. -/
structure PreparedDump (store : StoreDirConfig) where
  name : Bytes
  dumpMethod : FileSerialisationMethod
  hashAlgo : HashAlgorithm
  desc : ContentAddressWithReferences
  path : StorePath
  dump : ReadDump
  computed : store.makeFixedOutputPathFromCA name desc = .ok path

variable (store : StoreDirConfig)

/-- `addToStoreFromDump` up to `addTempRoot`. -/
def DumpRequest.prepare (r : DumpRequest) : Except Error (PreparedDump store) := do
  let hashSink : AsyncHashSink := { hashed := [], chunks := [], turns := r.turns }
  let methodsMatch := decide (r.dumpMethod.toIngestion = r.hashMethod.getFileIngestionMethod)
  let dump ← readDump r.narBufferSize r.dumpMethod methodsMatch { orig := r.chunks, sink := hashSink }
  let hash ←
    (if methodsMatch then .ok (store.hashString r.hashAlgo dump.hashed).1
     else hashTemp store r.hashMethod.getFileIngestionMethod r.hashAlgo dump.temp)
  let desc ← ContentAddressWithReferences.fromParts r.hashMethod hash
    { others := r.references, self := false }
  match hpath : store.makeFixedOutputPathFromCA r.name desc with
  | .error e => throw e
  | .ok path =>
      pure { name := r.name, dumpMethod := r.dumpMethod, hashAlgo := r.hashAlgo, desc, path, dump,
             computed := hpath }

/-- What a process adds to the store. -/
inductive Addition where
  /-- `addToStore(info, source)`. -/
  | source (info : ValidPathInfo) (nar : Bytes)
  /-- `addToStoreFromDump`, behind the reading of the stream. -/
  | dump (d : PreparedDump store)

namespace Addition

variable {store}

def path : Addition store → StorePath
  | .source info _ => info.path
  | .dump d => d.path

/-- `restorePath` or `moveFile`, where nothing is: the bytes read. -/
def place : Addition store → DiskM Bytes
  | .source info nar => restorePath info.path nar
  | .dump d => do
      settle d.dumpMethod d.path d.dump
      pure []

/-- What comes behind that, up to `registerValidPath` at the time `now`. -/
def finish (now : Int) : Addition store → Bytes → DiskM Unit
  | .source info _, nar => do
      let s ← get
      fromExcept (checkImport store info nar (s.tree info.path))
      registerValidPath store now info
  | .dump d, _ => do
      let s ← get
      let narHash ← fromExcept (narHashOf store d.dumpMethod d.hashAlgo d.dump (s.tree d.path))
      let info ← fromExcept (ValidPathInfo.makeFromCA store d.name d.desc narHash.1)
      registerValidPath store now { info with narSize := narHash.2 }

/-- The tree, or the part of a tree, that `place` puts at the path. -/
def leaves : Addition store → Option File
  | .source _ nar => (NixStore.restorePath nar).1
  | .dump d =>
      match d.dump.temp, d.dumpMethod with
      | some f, _ => some f
      | none, .flat => some (.regular false d.dump.dump)
      | none, .nixArchive => (NixStore.restorePath d.dump.dump).1

end Addition

variable {store} {now : Int}

-- ============================================================================
-- The sequential calls are made of these pieces
-- ============================================================================

theorem import_eq (info : ValidPathInfo) (source : Bytes) :
    import_ store now info source = (do
      deletePath info.path
      let nar ← (.source info source : Addition store).place
      (.source info source : Addition store).finish now nar) := by
  rw [import_steps]
  unfold unpack
  rw [bind_assoc]
  rfl

theorem importDump_eq (d : PreparedDump store) :
    importDump store now d.name d.dumpMethod d.hashAlgo d.desc d.path d.dump = (do
      deletePath d.path
      let nar ← (Addition.dump d).place
      (Addition.dump d).finish now nar) := by
  unfold importDump replaceTree Addition.place
  simp only [bind_assoc]
  rfl

theorem addToStoreFromDump_eq (r : DumpRequest) (repair : Bool) :
    addToStoreFromDump store now r.narBufferSize r.chunks r.turns r.name r.dumpMethod r.hashMethod
        r.hashAlgo r.references repair = (do
      let d ← fromExcept (r.prepare store)
      addIfWanted store repair d.path
        (importDump store now d.name d.dumpMethod d.hashAlgo d.desc d.path d.dump)
      pure d.path) := by
  unfold addToStoreFromDump DumpRequest.prepare
  simp only [fromExcept_bind, bind_assoc]
  refine bind_congr fun dump => bind_congr fun hash => bind_congr fun desc => ?_
  split
  · next e hpath =>
      rw [hpath]
      rfl
  · next path hpath =>
      have hpure : fromExcept (store.makeFixedOutputPathFromCA r.name desc)
          = (pure path : DiskM StorePath) := by
        rw [hpath]
        rfl
      rw [hpure]
      rfl

-- ============================================================================
-- What the pieces do
-- ============================================================================

/-- A step that changes what is at a path, and nothing else. -/
structure ChangedAt (path : StorePath) (s s' : DiskStore) : Prop where
  local_eq : s'.toLocalStore = s.toLocalStore
  others : ∀ p, p ≠ path → s'.tree p = s.tree p

theorem tree_of_lookup {s s' : DiskStore} {path p : StorePath} {name : FileName}
    (hname : realName path = some name)
    (h : ∀ n, n ≠ name → s'.files.lookup n = s.files.lookup n) (hp : p ≠ path) :
    s'.tree p = s.tree p := by
  unfold tree
  cases hq : realName p with
  | none => rfl
  | some n =>
      refine h n ?_
      rintro rfl
      exact hp (realName_inj hq hname)

theorem changedAt_place {path : StorePath} {name : FileName} (hname : realName path = some name)
    (s : DiskStore) (t : Option File) : ChangedAt path s (s.place name t) := by
  refine ⟨toLocalStore_place s name t, fun p hp => tree_of_lookup hname (fun n hn => ?_) hp⟩
  cases t with
  | none => rfl
  | some f => exact Finmap.lookup_insert_of_ne _ hn

theorem tree_place {path : StorePath} {name : FileName} (hname : realName path = some name)
    (s : DiskStore) (f : File) : (s.place name (some f)).tree path = some f := by
  unfold tree
  rw [hname]
  exact Finmap.lookup_insert _

theorem deletePath_outcome {path : StorePath} (hnamed : realName path ≠ none) (s : DiskStore) :
    Run s (deletePath path) (fun _ s' => ChangedAt path s s') (fun _ _ => False) := by
  obtain ⟨name, hname⟩ := Option.ne_none_iff_exists'.mp hnamed
  rintro _ rfl
  rw [deletePath, hname]
  exact ⟨rfl, fun p hp => tree_of_lookup hname (fun n hn => Finmap.lookup_erase_ne hn) hp⟩

theorem restorePath_outcome {path : StorePath} (hnamed : realName path ≠ none) (nar : Bytes)
    (s : DiskStore) :
    Run s (restorePath path nar) (fun _ s' => ChangedAt path s s' ∧ s'.tree path ≠ none)
      (fun _ s' => ChangedAt path s s' ∧
        ((NixStore.restorePath nar).1 ≠ none → s'.tree path ≠ none)) := by
  obtain ⟨name, hname⟩ := Option.ne_none_iff_exists'.mp hnamed
  rintro _ rfl
  rename_i s
  have hthere : ∀ t, t ≠ none → (s.place name t).tree path ≠ none := by
    intro t ht
    obtain ⟨f, rfl⟩ := Option.ne_none_iff_exists'.mp ht
    rw [tree_place hname]
    exact Option.some_ne_none f
  simp only [restorePath, hname]
  cases hrun : NixStore.restorePath nar with
  | mk t r =>
      cases r with
      | ok read =>
          obtain ⟨f, rfl, -⟩ := restorePath_eq_ok.mp hrun
          exact ⟨changedAt_place hname s _, hthere _ (Option.some_ne_none f)⟩
      | error e => exact ⟨changedAt_place hname s _, hthere t⟩

theorem moveFile_outcome {path : StorePath} (hnamed : realName path ≠ none) (f : File)
    (s : DiskStore) :
    Run s (moveFile path f) (fun _ s' => ChangedAt path s s' ∧ s'.tree path ≠ none)
      (fun _ _ => False) := by
  obtain ⟨name, hname⟩ := Option.ne_none_iff_exists'.mp hnamed
  rintro _ rfl
  rename_i s
  simp only [moveFile, hname]
  refine ⟨changedAt_place hname s _, ?_⟩
  rw [tree_place hname]
  exact Option.some_ne_none f

namespace Addition

/-- When `place` returns, there is a tree. -/
theorem place_outcome (a : Addition store) (hnamed : realName a.path ≠ none) (s : DiskStore) :
    Run s a.place (fun _ s' => ChangedAt a.path s s' ∧ s'.tree a.path ≠ none)
      (fun _ s' => ChangedAt a.path s s' ∧ (a.leaves ≠ none → s'.tree a.path ≠ none)) := by
  cases a with
  | source info nar => exact restorePath_outcome hnamed nar s
  | dump d =>
      obtain ⟨name, dumpMethod, hashAlgo, desc, path, ⟨bytes, temp, hashed⟩, computed⟩ := d
      have hmove : ∀ f, Run s (moveFile path f)
          (fun _ s' => ChangedAt path s s' ∧ s'.tree path ≠ none)
          (fun _ s' => ChangedAt path s s' ∧ (some f ≠ none → s'.tree path ≠ none)) := fun f =>
        (moveFile_outcome hnamed f s).weaken (fun _ h => h) (fun _ _ h => h) fun _ _ h => h.elim
      cases temp with
      | some f => exact Spec.seq (hmove f) fun _ => Spec.ret fun _ h => h
      | none =>
          cases dumpMethod with
          | flat => exact Spec.seq (hmove _) fun _ => Spec.ret fun _ h => h
          | nixArchive =>
              refine Spec.seq ?_ fun _ => Spec.ret fun _ h => h
              exact Spec.seq (restorePath_outcome hnamed bytes s) fun _ => Spec.ret fun _ h => h

/-- When `finish` returns, the path is valid. -/
theorem finish_outcome (a : Addition store) (nar : Bytes) (s : DiskStore) :
    Run s (a.finish now nar)
      (fun _ s' => s'.files = s.files ∧ ∀ t, s'.db.Valid t ↔
        s.db.Valid t ∨ t = store.printStorePath a.path)
      (fun _ s' => s'.files = s.files ∧ s'.db = s.db) := by
  have hregister : ∀ info : ValidPathInfo, info.path = a.path →
      Run s (registerValidPath store now info)
        (fun _ s' => s'.files = s.files ∧ ∀ t, s'.db.Valid t ↔
          s.db.Valid t ∨ t = store.printStorePath a.path)
        (fun _ s' => s'.files = s.files ∧ s'.db = s.db) := by
    intro info hpath
    refine (onStore_spec (LocalStore.registerValidPaths_outcome (.single info)
      s.toLocalStore)).weaken (fun _ h => h) ?_ fun _ _ h => ⟨h.2, h.1.2.2⟩
    rintro _ s' ⟨⟨-, -, hdb⟩, hfiles⟩
    refine ⟨hfiles, fun t => (hdb.valid t).trans (or_congr Iff.rfl ?_)⟩
    rw [← hpath]
    exact ⟨fun ⟨i, hi, ht⟩ => List.mem_singleton.mp hi ▸ ht,
      fun ht => ⟨info, List.mem_singleton.mpr rfl, ht⟩⟩
  cases a with
  | source info nar' =>
      refine Spec.seq (Q := fun _ s' => s' = s) (fun t ht => ht) fun t => ?_
      refine Spec.seq (Q := fun _ s' => s' = s) (Spec.lift (fun _ _ _ h => h) ?_) fun _ =>
        hregister info rfl
      rintro _ _ - rfl
      exact ⟨rfl, rfl⟩
  | dump d =>
      have hsame : ∀ (e : Error) (s' : DiskStore), s' = s → s'.files = s.files ∧ s'.db = s.db := by
        rintro _ _ rfl
        exact ⟨rfl, rfl⟩
      refine Spec.seq (Q := fun _ s' => s' = s) (fun t ht => ht) fun t => ?_
      refine Spec.seq (Q := fun _ s' => s' = s) (Spec.lift (fun _ _ _ h => h)
        fun e s' _ => hsame e s') fun narHash => ?_
      refine Spec.seq (Q := fun info s' => s' = s ∧ info.path = d.path)
        (Spec.lift ?_ fun e s' _ => hsame e s') fun info => Spec.given fun hpath =>
          hregister { info with narSize := narHash.2 } hpath
      intro info s' hmake hs
      refine ⟨hs, ?_⟩
      unfold ValidPathInfo.makeFromCA at hmake
      rw [d.computed, ok_bind] at hmake
      cases hmake
      rfl

end Addition

end DiskStore

-- ============================================================================
-- Processes
-- ============================================================================

namespace Importers

open TempRoots (Pid)

variable (store : StoreDirConfig)

/-- A call of `addToStore` or `addToStoreFromDump`. -/
structure Call where
  addition : DiskStore.Addition store
  repair : Bool

variable {store} in
abbrev Call.path (r : Call store) : StorePath := r.addition.path

/-- What a process does next. -/
inductive Pc where
  | idle
  /-- It is in `addTempRoot`. -/
  | rooting (r : Call store)
  /-- `repair || !isValidPath(path)`. -/
  | checking (r : Call store)
  /-- It is in `lockPaths`. -/
  | locking (r : Call store)
  /-- `repair || !isValidPathUncached(path)`. -/
  | rechecking (r : Call store)
  /-- `deletePath(realPath)`. -/
  | deleting (r : Call store)
  | placing (r : Call store)
  | finishing (r : Call store) (nar : Bytes)
  /-- It is in the destructor of `outputLock`; `ok` says whether the call is
      about to return. -/
  | unlocking (r : Call store) (ok : Bool)
  | returned (path : StorePath)

/-- What processes share, and each one's cache. -/
structure State where
  temp : TempRoots.State
  locks : PathLocks.State Pid StorePath
  db : Db
  files : Finmap fun _ : FileName => File
  caches : Pid → LruCache StorePath (Option ValidPathInfo)
  pc : Pid → Pc store
  /-- The path that the collector has invalidated and is about to delete. -/
  dropped : Option StorePath

variable {store}

namespace State

/-- The tree at `toRealPath(path)`. -/
def tree (s : State store) (path : StorePath) : Option File :=
  (DiskStore.realName path).bind s.files.lookup

/-- The store as a process sees it. -/
def disk (s : State store) (c : Pid) : DiskStore where
  db := s.db
  pathInfoCache := s.caches c
  files := s.files

def setDisk (s : State store) (c : Pid) (d : DiskStore) : State store :=
  { s with
    db := d.db
    files := d.files
    caches := Function.update s.caches c d.pathInfoCache }

def setPc (s : State store) (c : Pid) (pc : Pc store) : State store :=
  { s with pc := Function.update s.pc c pc }

@[simp] theorem setPc_self (s : State store) (c : Pid) (pc : Pc store) : (s.setPc c pc).pc c = pc :=
  Function.update_self _ _ _

theorem setPc_of_ne (s : State store) {c q : Pid} (pc : Pc store) (h : q ≠ c) :
    (s.setPc c pc).pc q = s.pc q :=
  Function.update_of_ne h _ _

/-- A process runs a piece of its call. -/
def exec {α : Type} (s : State store) (c : Pid) (x : DiskM α) (next : α → Pc store)
    (failed : Pc store) : State store :=
  match x (s.disk c) with
  | .ok a d => (s.setDisk c d).setPc c (next a)
  | .error _ d => (s.setDisk c d).setPc c failed

end State

variable (store) in
/-- The second check, and what follows if it says that the path is valid. -/
def recheck (repair : Bool) (path : StorePath) : DiskM Bool := do
  if ← DiskStore.wantedUncached store repair path then pure true
  else do
    DiskStore.invalidatePathInfoCacheFor path
    pure false

/-- The next piece of a call, between `addTempRoot` and the unlocking. -/
def goStep (s : State store) (c : Pid) (now : Int) : Option (State store) :=
  match s.pc c with
  | .rooting r =>
      if (s.temp.clients c).pc = .idle ∧ r.path ∈ (s.temp.clients c).rooted then
        some (s.setPc c (.checking r))
      else none
  | .checking r =>
      some (s.exec c (DiskStore.wanted store r.repair r.path)
        (fun b => if b then .locking r else .returned r.path) .idle)
  | .locking r =>
      match s.locks.pc c with
      | .inside _ _ => some (s.setPc c (.rechecking r))
      | _ => none
  | .rechecking r =>
      some (s.exec c (recheck store r.repair r.path)
        (fun b => if b then .deleting r else .unlocking r true) (.unlocking r false))
  | .deleting r =>
      some (s.exec c (DiskStore.deletePath r.path) (fun _ => .placing r) (.unlocking r false))
  | .placing r => some (s.exec c r.addition.place (.finishing r) (.unlocking r false))
  | .finishing r nar =>
      some (s.exec c (r.addition.finish now nar) (fun _ => .unlocking r true) (.unlocking r false))
  | .idle | .unlocking _ _ | .returned _ => none

/-- A system call of `lockPaths` or of the destructor.  The call returns, or
    throws, when the lock is closed. -/
def lockStep (s : State store) (c : Pid) (call : PathLocks.LockCall StorePath) :
    Option (State store) :=
  match s.pc c, call with
  | .locking r, .openFile path =>
      if path = r.path then
        (PathLocks.lockStep s.locks c (.openFile path)).map fun t => { s with locks := t }
      else none
  | .locking _, .flockNonBlocking | .locking _, .flock | .locking _, .flockInterrupted
  | .locking _, .fstat | .locking _, .closeOld | .unlocking _ true, .unlink
  | .unlocking _ true, .write =>
      (PathLocks.lockStep s.locks c call).map fun t => { s with locks := t }
  | .unlocking r ok, .close =>
      (PathLocks.lockStep s.locks c .close).map fun t =>
        { s with locks := t }.setPc c (if ok then .returned r.path else .idle)
  | _, _ => none

/-- What a process asks the store besides. -/
inductive Query where
  | isValidPath (path : StorePath)
  | queryPathInfo (path : StorePath)

variable (store) in
def Query.run : Query → DiskM Unit
  | .isValidPath path => do
      let _ ← DiskStore.onStore (LocalStore.isValidPath store path)
      pure ()
  | .queryPathInfo path => do
      let _ ← DiskStore.onStore (LocalStore.queryPathInfo store path)
      pure ()

variable (store) in
inductive Act where
  /-- A step of `addTempRoot`, of the collector's server, or of a collector. -/
  | temp (a : TempRoots.Act)
  | start (c : Pid) (pathInfoCacheSize : Nat)
  | die (c : Pid)
  | query (c : Pid) (q : Query)
  | call (c : Pid) (r : Call store)
  | lock (c : Pid) (call : PathLocks.LockCall StorePath)
  | go (c : Pid) (now : Int)
  /-- `invalidatePathChecked` of the collector. -/
  | invalidate (path : StorePath)
  /-- `deleteFromStore` of the collector. -/
  | deleteTree (path : StorePath)
  /-- The same for the lock file of a path, whose name has the path's hash part. -/
  | deleteLock (path : StorePath)
  /-- The same where that name is too long for a store path. -/
  | sweepLock (path : StorePath)

/-- Whether a process can begin something new. -/
def Pc.free : Pc store → Bool
  | .idle | .returned _ => true
  | _ => false

/-- The name of the lock file of a path. -/
def lockName (path : StorePath) : Bytes := path.baseName ++ ascii ".lock"

/-- What an action does. -/
def step (s : State store) : Act store → Option (State store)
  | .temp (.begin _ _) | .temp (.die _) | .temp (.start _) | .temp (.destroy _)
  | .temp (.sweep _) => none
  | .temp a =>
      (TempRoots.step store s.temp a).map fun t =>
        { s with
          temp := t
          dropped := match a with
            | .reset | .stop => none
            | _ => s.dropped }
  | .start c size =>
      (TempRoots.step store s.temp (.start c)).map fun t =>
        { s with temp := t, caches := Function.update s.caches c (LruCache.empty size) }
  | .die c =>
      some ({ s with temp := TempRoots.dieStep s.temp c, locks := s.locks.closeAll c }.setPc c .idle)
  | .query c q =>
      if (s.pc c).free then some (s.exec c (q.run store) (fun _ => s.pc c) (s.pc c)) else none
  | .call c r =>
      if (s.pc c).free then
        (TempRoots.step store s.temp (.begin c r.path)).map fun t =>
          { s with temp := t }.setPc c (.rooting r)
      else none
  | .lock c call => lockStep s c call
  | .go c now => goStep s c now
  | .invalidate path =>
      (TempRoots.step store s.temp (.destroy path.hashPart)).bind fun t =>
        match s.db.invalidatePath (store.printStorePath path) with
        | .ok db => some { s with temp := t, db, dropped := some path }
        | .error _ => none
  | .deleteTree path =>
      if s.dropped = some path then
        some { s with files := match DiskStore.realName path with
          | some name => s.files.erase name
          | none => s.files }
      else none
  | .deleteLock path =>
      (TempRoots.step store s.temp (.destroy path.hashPart)).map fun t =>
        { s with temp := t, locks := s.locks.unlink path }
  | .sweepLock path =>
      (TempRoots.step store s.temp (.sweep (lockName path))).map fun t =>
        { s with temp := t, locks := s.locks.unlink path }

/-- Nobody runs; every path that is valid has its tree. -/
structure Initial (s : State store) : Prop where
  temp : TempRoots.Initial s.temp
  locks : s.locks = PathLocks.initial
  pc : ∀ c, s.pc c = .idle
  dropped : s.dropped = none
  present : ∀ p, s.db.Valid (store.printStorePath p) → s.tree p ≠ none

variable (store) in
/-- Any number of processes, and one collector after another. -/
def system : System (State store) (Act store) where
  init := Initial
  step := step

-- ============================================================================
-- Conditions
-- ============================================================================

/-- Nobody is just repairing a path. -/
def NotRepaired (s : State store) (path : StorePath) : Prop :=
  s.db.Valid (store.printStorePath path) → ∀ c r, s.pc c = .placing r → r.path ≠ path

variable (store) in
/-- What a step has to meet: temporary roots are orderly, also where a lock file is
    deleted that has no store path's name; no `flock` is interrupted; a process that remembers that the path is valid is right; nobody
    is just repairing the path when a call returns; a repair leaves a tree behind;
    and no process dies while it repairs, or unlinks its lock file. -/
def Sound (s : State store) : Act store → Prop
  | .temp a => TempRoots.Orderly store s.temp a
  | .sweepLock path => TempRoots.Orderly store s.temp (.sweep (lockName path))
  | .call _ r => TempRoots.Sendable store r.path
  | .lock c call => call ≠ .flockInterrupted ∧
      ∀ r, call = .close → s.pc c = .unlocking r true → NotRepaired s r.path
  | .go c _ =>
      (∀ r, s.pc c = .checking r → r.repair = false → NotRepaired s r.path ∧
        ∀ info, (s.caches c).find r.path = some (some info) →
          s.db.Valid (store.printStorePath r.path)) ∧
      ∀ r, s.pc c = .placing r → s.db.Valid (store.printStorePath r.path) → r.addition.leaves ≠ none
  | .die c => (∀ path i, s.locks.pc c ≠ .unlinked path i) ∧
      ∀ r, s.pc c = .placing r → ¬ s.db.Valid (store.printStorePath r.path)
  | _ => True

-- ============================================================================
-- Invariant
-- ============================================================================

namespace Pc

/-- The call that a process is in. -/
def call : Pc store → Option (Call store)
  | .idle | .returned _ => none
  | .rooting r | .checking r | .locking r | .rechecking r | .deleting r | .placing r
  | .finishing r _ | .unlocking r _ => some r

/-- The call that a process is in, behind `addTempRoot`. -/
def rooted : Pc store → Option (Call store)
  | .idle | .returned _ | .rooting _ => none
  | .checking r | .locking r | .rechecking r | .deleting r | .placing r | .finishing r _
  | .unlocking r _ => some r

/-- The call for which a process has the lock. -/
def holding : Pc store → Option (Call store)
  | .rechecking r | .deleting r | .placing r | .finishing r _ => some r
  | _ => none

/-- The call for which a process may have its lock file open. -/
def busy : Pc store → Option (Call store)
  | .locking r | .rechecking r | .deleting r | .placing r | .finishing r _ | .unlocking r _ => some r
  | _ => none

theorem rooted_of_busy {pc : Pc store} {r : Call store} (h : pc.busy = some r) :
    pc.rooted = some r := by
  cases pc
  all_goals first
    | exact h
    | cases h

theorem busy_of_holding {pc : Pc store} {r : Call store} (h : pc.holding = some r) :
    pc.busy = some r := by
  cases pc
  all_goals first
    | exact h
    | cases h

theorem call_of_rooted {pc : Pc store} {r : Call store} (h : pc.rooted = some r) :
    pc.call = some r := by
  cases pc
  all_goals first
    | exact h
    | cases h

end Pc

/-- What holds of a process. -/
structure ProcOk (s : State store) (c : Pid) : Prop where
  called : ∀ r, (s.pc c).call = some r →
    (s.temp.clients c).alive = true ∧ TempRoots.Sendable store r.path
  rooted : ∀ r, (s.pc c).rooted = some r → r.path ∈ (s.temp.clients c).rooted
  busy : ∀ path, (s.locks.pc c).path = some path → ∃ r, (s.pc c).busy = some r ∧ r.path = path
  holding : ∀ r, (s.pc c).holding = some r → ∃ i, s.locks.pc c = .inside r.path i
  placed : ∀ r nar, s.pc c = .finishing r nar → s.tree r.path ≠ none
  valid : ∀ r, s.pc c = .unlocking r true → s.db.Valid (store.printStorePath r.path)

/-- What holds in every state. -/
structure Inv (s : State store) : Prop where
  temp : TempRoots.Inv store s.temp
  locks : PathLocks.LockInv s.locks
  procs : ∀ c, ProcOk s c
  dropped : ∀ p, s.dropped = some p →
    s.temp.collector = .deleting p.hashPart ∧ ¬ s.db.Valid (store.printStorePath p)
  present : ∀ p, s.db.Valid (store.printStorePath p) → s.tree p ≠ none ∨
    ∃ c r, s.pc c = .placing r ∧ r.path = p

variable {s s' : State store} {c : Pid}

theorem Pc.rooted_of_call_none {pc : Pc store} (h : pc.call = none) (r : Call store) :
    pc.rooted ≠ some r := by
  intro hr
  rw [Pc.call_of_rooted hr] at h
  cases h

/-- A process that is in no call. -/
theorem ProcOk.of_free (hcall : (s.pc c).call = none)
    (hlock : ∀ path, (s.locks.pc c).path ≠ some path) : ProcOk s c where
  called r hr := by
    rw [hcall] at hr
    cases hr
  rooted r hr := absurd hr (Pc.rooted_of_call_none hcall r)
  busy path hpath := absurd hpath (hlock path)
  holding r hr :=
    absurd (Pc.rooted_of_busy (Pc.busy_of_holding hr)) (Pc.rooted_of_call_none hcall r)
  placed r nar hr := by
    rw [hr] at hcall
    cases hcall
  valid r hr := by
    rw [hr] at hcall
    cases hcall

theorem inv_initial (h : Initial s) : Inv s where
  temp := TempRoots.inv_initial h.temp
  locks := by
    rw [h.locks]
    exact PathLocks.lockInv_initial
  procs c := by
    refine .of_free ?_ fun path hpath => ?_
    · rw [h.pc c]
      rfl
    · rw [h.locks] at hpath
      cases hpath
  dropped p hp := by cases h.dropped.symm.trans hp
  present p hp := Or.inl (h.present p hp)

/-- Two processes do not have the lock for the same path. -/
theorem Inv.exclusion (h : Inv s) {q : Pid} {r r' : Call store} (hc : (s.pc c).holding = some r)
    (hq : (s.pc q).holding = some r') (hpath : r.path = r'.path) : c = q := by
  obtain ⟨i, hi⟩ := (h.procs c).holding r hc
  obtain ⟨j, hj⟩ := (h.procs q).holding r' hq
  rw [hpath] at hi
  have hij : i = j :=
    Option.some.inj ((h.locks.inside c _ i hi).symm.trans (h.locks.inside q _ j hj))
  have hheld := h.locks.holds c i (by rw [hi]; rfl)
  have hheld' := h.locks.holds q j (by rw [hj]; rfl)
  rw [hij] at hheld
  exact Option.some.inj (hheld.symm.trans hheld')

/-- What the collector deletes is not the path of a call. -/
theorem Inv.not_deleting (h : Inv s) {hash : Bytes} (hat : s.temp.collector = .deleting hash)
    {r : Call store} (hr : (s.pc c).rooted = some r) : r.path.hashPart ≠ hash :=
  h.temp.not_rooted hat ((h.procs c).rooted r hr)

-- ============================================================================
-- Steps of others
-- ============================================================================

/-- What a step may do around a process. -/
structure Around (s s' : State store) (c : Pid) : Prop where
  pc : s'.pc c = s.pc c
  lock : s'.locks.pc c = s.locks.pc c
  client : (s.temp.clients c).alive = true → (s'.temp.clients c).alive = true ∧
    (s.temp.clients c).rooted ⊆ (s'.temp.clients c).rooted
  placed : ∀ r, (s.pc c).holding = some r → s.tree r.path ≠ none → s'.tree r.path ≠ none
  valid : ∀ r, (s.pc c).rooted = some r → s.db.Valid (store.printStorePath r.path) →
    s'.db.Valid (store.printStorePath r.path)

theorem ProcOk.around (hok : ProcOk s c) (h : Around s s' c) : ProcOk s' c where
  called r hr := by
    rw [h.pc] at hr
    obtain ⟨halive, hsend⟩ := hok.called r hr
    exact ⟨(h.client halive).1, hsend⟩
  rooted r hr := by
    rw [h.pc] at hr
    obtain ⟨halive, -⟩ := hok.called r (Pc.call_of_rooted hr)
    exact (h.client halive).2 (hok.rooted r hr)
  busy path hpath := by
    rw [h.lock] at hpath
    rw [h.pc]
    exact hok.busy path hpath
  holding r hr := by
    rw [h.lock]
    exact hok.holding r (h.pc ▸ hr)
  placed r nar hr := by
    rw [h.pc] at hr
    refine h.placed r ?_ (hok.placed r nar hr)
    rw [hr]
    rfl
  valid r hr := by
    rw [h.pc] at hr
    refine h.valid r ?_ (hok.valid r hr)
    rw [hr]
    rfl

/-- A step in which no process moves. -/
theorem Inv.of_around (h : Inv s) (haround : ∀ c, Around s s' c)
    (htemp : TempRoots.Inv store s'.temp) (hlocks : PathLocks.LockInv s'.locks)
    (hdropped : ∀ p, s'.dropped = some p →
      s'.temp.collector = .deleting p.hashPart ∧ ¬ s'.db.Valid (store.printStorePath p))
    (hpresent : ∀ p, s'.db.Valid (store.printStorePath p) →
      s.db.Valid (store.printStorePath p) ∧ s'.tree p = s.tree p) : Inv s' where
  temp := htemp
  locks := hlocks
  procs c := (h.procs c).around (haround c)
  dropped := hdropped
  present p hp := by
    obtain ⟨hvalid, htree⟩ := hpresent p hp
    rw [htree]
    refine (h.present p hvalid).imp_right ?_
    rintro ⟨q, r, hq, hr⟩
    exact ⟨q, r, (haround q).pc.trans hq, hr⟩

/-- A process moves on and leaves the store as it is. -/
theorem Inv.setPc (h : Inv s) {pc : Pc store}
    (hcalled : ∀ r, pc.call = some r →
      (s.temp.clients c).alive = true ∧ TempRoots.Sendable store r.path)
    (hrooted : ∀ r, pc.rooted = some r → r.path ∈ (s.temp.clients c).rooted)
    (hbusy : ∀ path, (s.locks.pc c).path = some path → ∃ r, pc.busy = some r ∧ r.path = path)
    (hholding : ∀ r, pc.holding = some r → ∃ i, s.locks.pc c = .inside r.path i)
    (hplaced : ∀ r nar, pc = .finishing r nar → s.tree r.path ≠ none)
    (hvalid : ∀ r, pc = .unlocking r true → s.db.Valid (store.printStorePath r.path))
    (hpresent : ∀ r, s.pc c = .placing r → s.db.Valid (store.printStorePath r.path) →
      s.tree r.path ≠ none) : Inv (s.setPc c pc) where
  temp := h.temp
  locks := h.locks
  procs q := by
    by_cases hq : q = c
    · subst hq
      have hself : (s.setPc q pc).pc q = pc := State.setPc_self _ _ _
      refine ⟨?_, ?_, ?_, ?_, ?_, ?_⟩
      · rw [hself]
        exact hcalled
      · rw [hself]
        exact hrooted
      · rw [hself]
        exact hbusy
      · rw [hself]
        exact hholding
      · rw [hself]
        exact hplaced
      · rw [hself]
        exact hvalid
    · refine (h.procs q).around ⟨State.setPc_of_ne s pc hq, rfl, ?_, ?_, ?_⟩
      · exact fun halive => ⟨halive, fun _ h => h⟩
      · exact fun _ _ h => h
      · exact fun _ _ h => h
  dropped := h.dropped
  present p hp := by
    rcases h.present p hp with htree | ⟨q, r, hq, rfl⟩
    · exact Or.inl htree
    · by_cases hqc : q = c
      · subst hqc
        exact Or.inl (hpresent r hq hp)
      · exact Or.inr ⟨q, r, (State.setPc_of_ne s pc hqc).trans hq, rfl⟩

/-- A process leaves its call. -/
theorem Inv.leave (h : Inv s) {pc : Pc store} (hcall : pc.call = none)
    (hlock : ∀ path, (s.locks.pc c).path ≠ some path)
    (hpresent : ∀ r, s.pc c = .placing r → s.db.Valid (store.printStorePath r.path) →
      s.tree r.path ≠ none) : Inv (s.setPc c pc) := by
  have hrooted := Pc.rooted_of_call_none hcall
  refine h.setPc (fun r hr => ?_) (fun r hr => absurd hr (hrooted r))
    (fun path hpath => absurd hpath (hlock path))
    (fun r hr => absurd (Pc.rooted_of_busy (Pc.busy_of_holding hr)) (hrooted r)) ?_ ?_ hpresent
  · rw [hcall] at hr
    cases hr
  · rintro r nar rfl
    cases hcall
  · rintro r rfl
    cases hcall

/-- A process changes the store, the tree and the validity of the path it has
    locked at most. -/
theorem Inv.setDisk (h : Inv s) {d : DiskStore}
    (htree : ∀ p, (∀ r, (s.pc c).holding = some r → p ≠ r.path) → d.tree p = s.tree p)
    (hvalid : ∀ t, s.db.Valid t → d.db.Valid t)
    (hnew : ∀ p, (∀ r, (s.pc c).holding = some r → p ≠ r.path) →
      d.db.Valid (store.printStorePath p) → s.db.Valid (store.printStorePath p))
    (hplaced : ∀ r nar, s.pc c = .finishing r nar → d.tree r.path ≠ none)
    (hpresent : ∀ r, (s.pc c).holding = some r → d.db.Valid (store.printStorePath r.path) →
      d.tree r.path ≠ none ∨ s.pc c = .placing r) : Inv (s.setDisk c d) where
  temp := h.temp
  locks := h.locks
  procs q := by
    have hclient : (s.temp.clients q).alive = true → (s.temp.clients q).alive = true ∧
        (s.temp.clients q).rooted ⊆ (s.temp.clients q).rooted := fun halive => ⟨halive, fun _ h => h⟩
    by_cases hq : q = c
    · subst hq
      exact
        { called := (h.procs q).called
          rooted := (h.procs q).rooted
          busy := (h.procs q).busy
          holding := (h.procs q).holding
          placed := hplaced
          valid := fun r hr => hvalid _ ((h.procs q).valid r hr) }
    · refine (h.procs q).around ⟨rfl, rfl, hclient, fun r hr hthere => ?_, fun _ _ => hvalid _⟩
      -- nobody else has the lock for this path
      have hsame : d.tree r.path = s.tree r.path := by
        refine htree r.path fun r' hr' heq => hq ?_
        exact h.exclusion hr hr' heq
      show d.tree r.path ≠ none
      rw [hsame]
      exact hthere
  dropped p hp := by
    obtain ⟨hat, hinvalid⟩ := h.dropped p hp
    refine ⟨hat, fun hd => hinvalid (hnew p (fun r hr heq => ?_) hd)⟩
    have hne := h.not_deleting hat (Pc.rooted_of_busy (Pc.busy_of_holding hr))
    exact hne (congrArg StorePath.hashPart heq.symm)
  present p hp := by
    by_cases hmine : ∃ r, (s.pc c).holding = some r ∧ p = r.path
    · obtain ⟨r, hr, rfl⟩ := hmine
      exact (hpresent r hr hp).imp_right fun hpc => ⟨c, r, hpc, rfl⟩
    · have hother : ∀ r, (s.pc c).holding = some r → p ≠ r.path :=
        fun r hr heq => hmine ⟨r, hr, heq⟩
      have hsame : (s.setDisk c d).tree p = s.tree p := htree p hother
      rw [hsame]
      exact h.present p (hnew p hother hp)

-- ============================================================================
-- Steps of a call
-- ============================================================================

theorem exec_cases {α : Type} {x : DiskM α} {Q : α → DiskStore → Prop} {E : Error → DiskStore → Prop}
    (h : Run (s.disk c) x Q E) (next : α → Pc store) (failed : Pc store) :
    (∃ a d, Q a d ∧ s.exec c x next failed = (s.setDisk c d).setPc c (next a)) ∨
      ∃ e d, E e d ∧ s.exec c x next failed = (s.setDisk c d).setPc c failed := by
  have hrun := h (s.disk c) rfl
  unfold State.exec
  cases hx : x (s.disk c) with
  | ok a d =>
      rw [hx] at hrun
      exact Or.inl ⟨a, d, hrun, rfl⟩
  | error e d =>
      rw [hx] at hrun
      exact Or.inr ⟨e, d, hrun, rfl⟩

/-- The process learns something about the store. -/
theorem Inv.look (h : Inv s) {d : DiskStore} (hdb : d.db = s.db) (hfiles : d.files = s.files) :
    Inv (s.setDisk c d) := by
  have htree : ∀ p, d.tree p = s.tree p := by
    intro p
    unfold DiskStore.tree State.tree
    rw [hfiles]
  refine h.setDisk (fun p _ => htree p) (fun t ht => hdb ▸ ht) (fun p _ hp => hdb ▸ hp) ?_ ?_
  · intro r nar hr
    rw [htree]
    exact (h.procs c).placed r nar hr
  · intro r hr hp
    rw [htree]
    rw [hdb] at hp
    refine (h.present r.path hp).imp_right ?_
    rintro ⟨q, r', hq, heq⟩
    -- only the process itself can be at that path
    have hqc : q = c := h.exclusion (r := r') (by rw [hq]; rfl) hr heq
    subst hqc
    rw [hq] at hr
    cases hr
    exact hq

/-- The call goes on with the lock as it is. -/
theorem Inv.goOn (h : Inv s) {r : Call store} {pc : Pc store} (hr : (s.pc c).rooted = some r)
    (hcall : pc.call = some r) (hrooted : pc.rooted = some r)
    (hbusy : pc.busy = some r) (hholding : pc.holding = none ∨ (s.pc c).holding = some r)
    (hplaced : ∀ r nar, pc = .finishing r nar → s.tree r.path ≠ none)
    (hvalid : ∀ r, pc = .unlocking r true → s.db.Valid (store.printStorePath r.path))
    (hpresent : s.pc c = .placing r → s.db.Valid (store.printStorePath r.path) →
      s.tree r.path ≠ none) : Inv (s.setPc c pc) := by
  have hok := h.procs c
  refine h.setPc ?_ ?_ ?_ ?_ hplaced hvalid ?_
  · intro r' hr'
    rw [hcall] at hr'
    cases hr'
    exact hok.called r (Pc.call_of_rooted hr)
  · intro r' hr'
    rw [hrooted] at hr'
    cases hr'
    exact hok.rooted r hr
  · intro path hpath
    obtain ⟨r', hr', heq⟩ := hok.busy path hpath
    have hsame := Pc.rooted_of_busy hr'
    rw [hr] at hsame
    cases hsame
    exact ⟨r, hbusy, heq⟩
  · intro r' hr'
    rcases hholding with hnone | hsome
    · rw [hnone] at hr'
      cases hr'
    · have hsame := Pc.rooted_of_busy (Pc.busy_of_holding hr')
      rw [hrooted] at hsame
      cases hsame
      exact hok.holding r hsome
  · intro r' hat hp
    rw [hat] at hr
    cases hr
    exact hpresent hat hp

theorem recheck_outcome (repair : Bool) (path : StorePath) (d : DiskStore) :
    Run d (recheck store repair path)
      (fun b d' => (d'.db = d.db ∧ d'.files = d.files) ∧
        (b = false → d.db.Valid (store.printStorePath path)))
      (fun _ _ => False) := by
  refine Spec.seq ((DiskStore.wantedUncached_outcome repair path d).weaken (fun _ h => h)
    (fun _ _ h => h) fun _ _ h => h.elim) fun b => Spec.cond (fun _ => ?_) fun hb => ?_
  · refine Spec.ret ?_
    rintro _ ⟨rfl, -⟩
    exact ⟨⟨rfl, rfl⟩, nofun⟩
  · rintro d' ⟨rfl, hiff⟩
    refine ⟨⟨rfl, rfl⟩, fun _ => not_not.mp fun hinvalid => hb (hiff.mpr (Or.inr hinvalid))⟩

/-- A process asks whether it has to import. -/
theorem Inv.check (h : Inv s) {r : Call store} (hpc : s.pc c = .checking r) :
    Inv (s.exec c (DiskStore.wanted store r.repair r.path)
      (fun b => if b then .locking r else .returned r.path) .idle) := by
  rcases exec_cases (DiskStore.wanted_outcome r.repair r.path (s.disk c))
    (fun b => if b then .locking r else .returned r.path) .idle with
    ⟨b, d, ⟨hsame, -⟩, heq⟩ | ⟨e, d, hfalse, -⟩
  · rw [heq]
    have hlook : Inv (s.setDisk c d) := h.look hsame.db_eq hsame.files_eq
    have hfree : ∀ path, (s.locks.pc c).path ≠ some path := by
      intro path hpath
      obtain ⟨r', hr', -⟩ := (h.procs c).busy path hpath
      rw [hpc] at hr'
      cases hr'
    have hcall : (s.pc c).rooted = some r := by
      rw [hpc]
      rfl
    have hnot : ∀ r', s.pc c ≠ .placing r' := by
      intro r' hat
      cases hpc.symm.trans hat
    cases b with
    | true =>
        refine hlook.setPc ?_ ?_ (fun path hpath => absurd hpath (hfree path)) (fun _ h => nomatch h)
          (fun _ _ h => nomatch h) (fun _ h => nomatch h) fun r' hat => absurd hat (hnot r')
        · rintro _ hr
          cases hr
          exact (h.procs c).called r (Pc.call_of_rooted hcall)
        · rintro _ hr
          cases hr
          exact (h.procs c).rooted r hcall
    | false =>
        exact hlook.leave rfl hfree fun r' hat => absurd hat (hnot r')
  · exact hfalse.elim

/-- It asks again, with the lock. -/
theorem Inv.recheck (h : Inv s) {r : Call store} (hpc : s.pc c = .rechecking r) :
    Inv (s.exec c (recheck store r.repair r.path)
      (fun b => if b then .deleting r else .unlocking r true) (.unlocking r false)) := by
  rcases exec_cases (recheck_outcome r.repair r.path (s.disk c))
    (fun b => if b then .deleting r else .unlocking r true) (.unlocking r false) with
    ⟨b, d, ⟨hsame, hvalid⟩, heq⟩ | ⟨e, d, hfalse, -⟩
  · rw [heq]
    have hlook : Inv (s.setDisk c d) := h.look hsame.1 hsame.2
    have hcall : ((s.setDisk c d).pc c).rooted = some r := by
      rw [show (s.setDisk c d).pc c = .rechecking r from hpc]
      rfl
    have hholding : ((s.setDisk c d).pc c).holding = some r := by
      rw [show (s.setDisk c d).pc c = .rechecking r from hpc]
      rfl
    have hnot : (s.setDisk c d).pc c ≠ .placing r := by
      intro hat
      cases hpc.symm.trans hat
    cases b with
    | true =>
        exact hlook.goOn hcall rfl rfl rfl (Or.inr hholding) (fun _ _ h => nomatch h)
          (fun _ h => nomatch h) fun hat => absurd hat hnot
    | false =>
        refine hlook.goOn hcall rfl rfl rfl (Or.inl rfl) (fun _ _ h => nomatch h) ?_
          fun hat => absurd hat hnot
        rintro _ hr
        cases hr
        show d.db.Valid _
        rw [hsame.1]
        exact hvalid rfl
  · exact hfalse.elim

/-- It deletes what is there. -/
theorem Inv.delete (h : Inv s) {r : Call store} (hpc : s.pc c = .deleting r) :
    Inv (s.exec c (DiskStore.deletePath r.path) (fun _ => .placing r) (.unlocking r false)) := by
  have hok := h.procs c
  have hcall : (s.pc c).rooted = some r := by
    rw [hpc]
    rfl
  have hnamed : DiskStore.realName r.path ≠ none :=
    DiskStore.realName_ne_none (hok.called r (Pc.call_of_rooted hcall)).2.1
  rcases exec_cases (DiskStore.deletePath_outcome hnamed (s.disk c)) (fun _ => .placing r)
    (.unlocking r false) with ⟨u, d, hchanged, heq⟩ | ⟨e, d, hfalse, -⟩
  · rw [heq]
    have hmoved : Inv (s.setPc c (.placing r)) := by
      refine h.goOn hcall rfl rfl rfl (Or.inr ?_) (fun _ _ h => nomatch h) (fun _ h => nomatch h) ?_
      · rw [hpc]
        rfl
      · intro hat
        cases hpc.symm.trans hat
    have hat : (s.setPc c (.placing r)).pc c = .placing r := State.setPc_self _ _ _
    have hdb : d.db = s.db := congrArg LocalStore.db hchanged.local_eq
    refine hmoved.setDisk (fun p hp => ?_) (fun t ht => hdb ▸ ht) (fun p _ hp => hdb ▸ hp) ?_ ?_
    · refine hchanged.others p (hp r ?_)
      rw [hat]
      rfl
    · intro r' nar hr'
      rw [hat] at hr'
      cases hr'
    · intro r' hr' _
      rw [hat] at hr' ⊢
      cases hr'
      exact Or.inr rfl
  · exact hfalse.elim

/-- It restores the tree. -/
theorem Inv.place (h : Inv s) {r : Call store} (hpc : s.pc c = .placing r)
    (hleaves : s.db.Valid (store.printStorePath r.path) → r.addition.leaves ≠ none) :
    Inv (s.exec c r.addition.place (.finishing r) (.unlocking r false)) := by
  have hcall : (s.pc c).rooted = some r := by
    rw [hpc]
    rfl
  have hholding : (s.pc c).holding = some r := by
    rw [hpc]
    rfl
  have hnamed : DiskStore.realName r.path ≠ none :=
    DiskStore.realName_ne_none ((h.procs c).called r (Pc.call_of_rooted hcall)).2.1
  have hmoved : ∀ d, DiskStore.ChangedAt r.path (s.disk c) d → Inv (s.setDisk c d) := by
    intro d hchanged
    have hdb : d.db = s.db := congrArg LocalStore.db hchanged.local_eq
    refine h.setDisk (fun p hp => hchanged.others p (hp r hholding)) (fun t ht => hdb ▸ ht)
      (fun p _ hp => hdb ▸ hp) (fun r' nar hr' => ?_) fun r' hr' _ => ?_
    · cases hpc.symm.trans hr'
    · rw [hholding] at hr'
      cases hr'
      exact Or.inr hpc
  rcases exec_cases (r.addition.place_outcome hnamed (s.disk c)) (.finishing r)
    (.unlocking r false) with ⟨nar, d, ⟨hchanged, hthere⟩, heq⟩ | ⟨e, d, ⟨hchanged, hthere⟩, heq⟩
  · rw [heq]
    refine (hmoved d hchanged).goOn hcall rfl rfl rfl (Or.inr hholding) ?_ (fun _ h => nomatch h)
      fun _ _ => hthere
    rintro _ _ hr
    cases hr
    exact hthere
  · rw [heq]
    refine (hmoved d hchanged).goOn hcall rfl rfl rfl (Or.inl rfl) (fun _ _ h => nomatch h)
      (fun _ h => nomatch h) fun _ hvalid => hthere (hleaves ?_)
    have hdb : d.db = s.db := congrArg LocalStore.db hchanged.local_eq
    rw [← hdb]
    exact hvalid

/-- It checks the tree and registers it. -/
theorem Inv.finish (h : Inv s) {r : Call store} {nar : Bytes} (hpc : s.pc c = .finishing r nar)
    (now : Int) :
    Inv (s.exec c (r.addition.finish now nar) (fun _ => .unlocking r true) (.unlocking r false)) := by
  have hcall : (s.pc c).rooted = some r := by
    rw [hpc]
    rfl
  have hholding : (s.pc c).holding = some r := by
    rw [hpc]
    rfl
  have hnot : s.pc c ≠ .placing r := by
    intro hat
    cases hpc.symm.trans hat
  have hplaced := (h.procs c).placed r nar hpc
  rcases exec_cases (r.addition.finish_outcome nar (s.disk c)) (fun _ => .unlocking r true)
    (.unlocking r false) with ⟨u, d, ⟨hfiles, hvalid⟩, heq⟩ | ⟨e, d, ⟨hfiles, hdb⟩, heq⟩
  · rw [heq]
    have htree : ∀ p, d.tree p = s.tree p := by
      intro p
      unfold DiskStore.tree
      rw [hfiles]
      rfl
    have hmoved : Inv (s.setDisk c d) := by
      refine h.setDisk (fun p _ => htree p) (fun t ht => (hvalid t).mpr (Or.inl ht))
        (fun p hp hd => ?_) (fun r' nar' hr' => ?_) fun r' hr' _ => Or.inl ?_
      · rcases (hvalid _).mp hd with hold | hnew
        · exact hold
        · exact absurd (store.printStorePath_inj hnew) (hp r hholding)
      · rw [htree]
        exact (h.procs c).placed r' nar' hr'
      · rw [hholding] at hr'
        cases hr'
        rw [htree]
        exact hplaced
    refine hmoved.goOn hcall rfl rfl rfl (Or.inl rfl) (fun _ _ h => nomatch h) ?_
      fun hat => absurd hat hnot
    rintro _ hr
    cases hr
    exact (hvalid _).mpr (Or.inr rfl)
  · rw [heq]
    exact (h.look hdb hfiles).goOn hcall rfl rfl rfl (Or.inl rfl) (fun _ _ h => nomatch h)
      (fun _ h => nomatch h) fun hat => absurd hat hnot

theorem Inv.goStep (h : Inv s) {now : Int} (hok : Sound store s (.go c now))
    (hstep : goStep s c now = some s') : Inv s' := by
  unfold Importers.goStep at hstep
  split at hstep
  · next r hpc =>
      split at hstep
      · next hrooted =>
          cases hstep
          refine h.setPc ?_ ?_ ?_ (fun _ h => nomatch h) (fun _ _ h => nomatch h)
            (fun _ h => nomatch h) fun r' hat => by cases hpc.symm.trans hat
          · rintro _ hr
            cases hr
            refine (h.procs c).called r ?_
            rw [hpc]
            rfl
          · rintro _ hr
            cases hr
            exact hrooted.2
          · intro path hpath
            obtain ⟨r', hr', -⟩ := (h.procs c).busy path hpath
            rw [hpc] at hr'
            cases hr'
      · cases hstep
  · next r hpc =>
      cases hstep
      exact h.check hpc
  · next r hpc =>
      split at hstep
      · next path i hlock =>
          cases hstep
          have hcall : (s.pc c).rooted = some r := by
            rw [hpc]
            rfl
          -- it is the lock of this call
          have hpath : r.path = path := by
            obtain ⟨r', hr', heq⟩ := (h.procs c).busy path (by rw [hlock]; rfl)
            rw [hpc] at hr'
            cases hr'
            exact heq
          refine h.setPc ?_ ?_ ?_ ?_ (fun _ _ h => nomatch h) (fun _ h => nomatch h)
            fun r' hat => by cases hpc.symm.trans hat
          · rintro _ hr
            cases hr
            exact (h.procs c).called r (Pc.call_of_rooted hcall)
          · rintro _ hr
            cases hr
            exact (h.procs c).rooted r hcall
          · intro path' hpath'
            obtain ⟨r', hr', heq⟩ := (h.procs c).busy path' hpath'
            rw [hpc] at hr'
            cases hr'
            exact ⟨r, rfl, heq⟩
          · rintro _ hr
            cases hr
            exact ⟨i, hpath ▸ hlock⟩
      · cases hstep
  · next r hpc =>
      cases hstep
      exact h.recheck hpc
  · next r hpc =>
      cases hstep
      exact h.delete hpc
  · next r hpc =>
      cases hstep
      exact h.place hpc (hok.2 r hpc)
  · next r nar hpc =>
      cases hstep
      exact h.finish hpc now
  all_goals cases hstep

-- ============================================================================
-- Steps of locks
-- ============================================================================

/-- A system call on the lock file of the call that a process is in. -/
theorem Inv.setLocks (h : Inv s) {call : PathLocks.LockCall StorePath}
    {t : PathLocks.State Pid StorePath} (hcall : call ≠ .flockInterrupted)
    (hstep : PathLocks.lockStep s.locks c call = some t) (hholding : (s.pc c).holding = none)
    (hopen : ∀ path, call = .openFile path → ∃ r, (s.pc c).busy = some r ∧ r.path = path) :
    Inv { s with locks := t } := by
  obtain ⟨hothers, hself⟩ := PathLocks.lockStep_pc hstep
  refine ⟨h.temp, PathLocks.lockInv_lockStep h.locks hcall hstep, fun q => ?_, h.dropped, h.present⟩
  by_cases hq : q = c
  · subst hq
    refine
      { called := (h.procs q).called
        rooted := (h.procs q).rooted
        busy := fun path hpath => ?_
        holding := fun r hr => ?_
        placed := (h.procs q).placed
        valid := (h.procs q).valid }
    · rcases hself path hpath with hold | hnew
      · exact (h.procs q).busy path hold
      · exact hopen path hnew
    · rw [show (s.pc q).holding = some r from hr] at hholding
      cases hholding
  · exact (h.procs q).around ⟨rfl, hothers q hq, fun halive => ⟨halive, fun _ h => h⟩,
      fun _ _ h => h, fun _ _ h => h⟩

theorem Inv.lockStep (h : Inv s) {call : PathLocks.LockCall StorePath}
    (hcall : call ≠ .flockInterrupted) (hstep : lockStep s c call = some s') : Inv s' := by
  unfold Importers.lockStep at hstep
  split at hstep
  case h_1 r path hpc =>
    split at hstep
    · next hpath =>
        obtain ⟨t, ht, rfl⟩ := Option.map_eq_some_iff.mp hstep
        refine h.setLocks hcall ht ?_ ?_
        · rw [hpc]
          rfl
        · rintro _ heq
          cases heq
          exact ⟨r, by rw [hpc]; rfl, hpath.symm⟩
    · cases hstep
  case h_9 r ok hpc =>
    obtain ⟨t, ht, rfl⟩ := Option.map_eq_some_iff.mp hstep
    have hclosed : Inv { s with locks := t } := by
      refine h.setLocks hcall ht ?_ fun _ heq => nomatch heq
      rw [hpc]
      rfl
    have hidle : t.pc c = .idle := PathLocks.lockStep_close ht
    have hnot : ∀ r', s.pc c ≠ .placing r' := by
      intro r' hat
      cases hpc.symm.trans hat
    have hdone : ∀ pc : Pc store, pc.call = none → Inv ({ s with locks := t }.setPc c pc) := by
      intro pc hnone
      refine hclosed.leave hnone (fun path hpath => ?_) fun r' hat => absurd hat (hnot r')
      rw [show ({ s with locks := t } : State store).locks.pc c = .idle from hidle] at hpath
      cases hpath
    cases ok with
    | true => exact hdone _ rfl
    | false => exact hdone _ rfl
  case h_10 => cases hstep
  all_goals
    rename_i hpc
    obtain ⟨t, ht, rfl⟩ := Option.map_eq_some_iff.mp hstep
    refine h.setLocks hcall ht ?_ fun _ heq => nomatch heq
    rw [hpc]
    rfl

-- ============================================================================
-- Steps around calls
-- ============================================================================

/-- A step of temporary roots that begins or ends no process. -/
theorem Inv.tempStep (h : Inv s) {a : TempRoots.Act} {t : TempRoots.State}
    {dropped : Option StorePath} (hok : TempRoots.Orderly store s.temp a)
    (hstep : TempRoots.step store s.temp a = some t) (hdie : ∀ c, a ≠ .die c)
    (hdropped : dropped = none ∨ dropped = s.dropped ∧ a ≠ .reset ∧ a ≠ .stop) :
    Inv { s with temp := t, dropped } := by
  have hkeep := fun c => TempRoots.step_keeps hstep c (hdie c)
  refine h.of_around (fun c => ⟨rfl, rfl, (hkeep c).1, fun _ _ h => h, fun _ _ h => h⟩)
    (h.temp.step hok hstep) h.locks (fun p hp => ?_) fun p hp => ⟨hp, rfl⟩
  rcases hdropped with rfl | ⟨rfl, hreset, hstop⟩
  · cases hp
  · obtain ⟨hat, hinvalid⟩ := h.dropped p hp
    refine ⟨?_, hinvalid⟩
    rw [← hat]
    exact (hkeep 0).2 _ hat hreset hstop

theorem Inv.die (h : Inv s) (hlock : ∀ path i, s.locks.pc c ≠ .unlinked path i)
    (hrepair : ∀ r, s.pc c = .placing r → ¬ s.db.Valid (store.printStorePath r.path)) :
    Inv ({ s with temp := TempRoots.dieStep s.temp c, locks := s.locks.closeAll c }.setPc c .idle)
    where
  temp := h.temp.die c
  locks := h.locks.closeAll hlock
  procs q := by
    by_cases hq : q = c
    · subst hq
      refine .of_free ?_ fun path hpath => ?_
      · show (Function.update s.pc q (.idle : Pc store) q).call = none
        rw [Function.update_self]
        rfl
      · have hclosed : (s.locks.closeAll q).pc q = .idle := PathLocks.State.setPc_self _ _ _
        change ((s.locks.closeAll q).pc q).path = some path at hpath
        rw [hclosed] at hpath
        cases hpath
    · have hclient : (TempRoots.dieStep s.temp c).clients q = s.temp.clients q :=
        Function.update_of_ne hq _ _
      refine (h.procs q).around ⟨Function.update_of_ne hq _ _,
        PathLocks.State.setPc_of_ne _ _ hq, fun halive => ?_, fun _ _ h => h, fun _ _ h => h⟩
      show ((TempRoots.dieStep s.temp c).clients q).alive = true ∧ _ ⊆
        ((TempRoots.dieStep s.temp c).clients q).rooted
      rw [hclient]
      exact ⟨halive, fun _ h => h⟩
  dropped := h.dropped
  present p hp := by
    rcases h.present p hp with htree | ⟨q, r, hq, rfl⟩
    · exact Or.inl htree
    · by_cases hqc : q = c
      · subst hqc
        exact absurd hp (hrepair r hq)
      · exact Or.inr ⟨q, r, (Function.update_of_ne hqc _ _).trans hq, rfl⟩

theorem query_outcome (q : Query) (d : DiskStore) :
    Run d (q.run store) (fun _ d' => d'.db = d.db ∧ d'.files = d.files)
      (fun _ d' => d'.db = d.db ∧ d'.files = d.files) := by
  have hask : ∀ {α : Type} {x : StoreM α}, Keeps (fun t : LocalStore => t.db = d.db) x →
      Run d (do let _ ← DiskStore.onStore x; pure ()) (fun _ d' => d'.db = d.db ∧ d'.files = d.files)
        (fun _ d' => d'.db = d.db ∧ d'.files = d.files) := by
    intro α x hx
    have hrun : Run d.toLocalStore x (fun _ t => t.db = d.db) (fun _ t => t.db = d.db) :=
      hx.weaken (fun t ht => ht ▸ rfl) (fun _ _ h => h) fun _ _ h => h
    exact Spec.seq (DiskStore.onStore_spec hrun) fun _ => Spec.ret fun _ h => h
  cases q with
  | isValidPath path => exact hask (LocalStore.isValidPath_db store d.db path)
  | queryPathInfo path => exact hask (LocalStore.queryPathInfo_db store d.db path)

/-- A process that is free has no lock file open. -/
theorem Inv.free (h : Inv s) (hfree : (s.pc c).free = true) :
    (s.pc c).call = none ∧ ∀ path, (s.locks.pc c).path ≠ some path := by
  have hnone : (s.pc c).call = none := by
    cases hpc : s.pc c
    all_goals rw [hpc] at hfree
    all_goals first
      | rfl
      | cases hfree
  refine ⟨hnone, fun path hpath => ?_⟩
  obtain ⟨r, hr, -⟩ := (h.procs c).busy path hpath
  rw [Pc.call_of_rooted (Pc.rooted_of_busy hr)] at hnone
  cases hnone

/-- A new call begins with `addTempRoot`. -/
theorem Inv.call (h : Inv s) {r : Call store} {t : TempRoots.State}
    (hsend : TempRoots.Sendable store r.path) (hfree : (s.pc c).free = true)
    (hstep : TempRoots.step store s.temp (.begin c r.path) = some t) :
    Inv ({ s with temp := t }.setPc c (.rooting r)) := by
  obtain ⟨hnone, hlock⟩ := h.free hfree
  have halive : (s.temp.clients c).alive = true := by
    simp only [TempRoots.step, TempRoots.beginStep] at hstep
    split at hstep
    · next halive => exact halive.1
    · cases hstep
  have hok : TempRoots.Orderly store s.temp (.begin c r.path) := hsend
  have hmoved : Inv { s with temp := t } :=
    h.tempStep hok hstep (fun _ h => by cases h)
      (Or.inr ⟨rfl, fun h => (by cases h), fun h => (by cases h)⟩)
  refine hmoved.setPc ?_ (fun _ h => by cases h) (fun path hpath => absurd hpath (hlock path))
    (fun _ h => by cases h) (fun _ _ h => by cases h) (fun _ h => by cases h) fun r' hat => ?_
  · rintro _ hr
    cases hr
    exact ⟨((TempRoots.step_keeps hstep c fun h => by cases h).1 halive).1, hsend⟩
  · rw [show s.pc c = .placing r' from hat] at hnone
    cases hnone

/-- The collector drops a path from the database. -/
theorem Inv.invalidate (h : Inv s) {path : StorePath} {db : Db}
    (hat : s.temp.collector = .deleting path.hashPart)
    (hdb : s.db.invalidatePath (store.printStorePath path) = .ok db) :
    Inv { s with db, dropped := some path } := by
  have hvalid := Db.valid_invalidate hdb
  refine h.of_around (fun c => ⟨rfl, rfl, fun halive => ⟨halive, fun _ h => h⟩, fun _ _ h => h,
    fun r hr hp => (hvalid _).mpr ⟨hp, fun heq => ?_⟩⟩) h.temp h.locks ?_
    fun p hp => ⟨((hvalid _).mp hp).1, rfl⟩
  · refine h.not_deleting hat hr ?_
    rw [store.printStorePath_inj heq]
  · rintro p hp
    cases hp
    exact ⟨hat, fun hp => ((hvalid _).mp hp).2 rfl⟩

/-- It deletes the tree. -/
theorem Inv.deleteTree (h : Inv s) {path : StorePath} {name : FileName}
    (hdropped : s.dropped = some path) (hname : DiskStore.realName path = some name) :
    Inv { s with files := s.files.erase name } := by
  obtain ⟨hat, hinvalid⟩ := h.dropped path hdropped
  have htree : ∀ p, p ≠ path → ({ s with files := s.files.erase name } : State store).tree p
      = s.tree p := by
    intro p hp
    have hothers : ∀ n, n ≠ name → (s.files.erase name).lookup n = s.files.lookup n :=
      fun n hn => Finmap.lookup_erase_ne hn
    exact @DiskStore.tree_of_lookup (s.disk 0) { s.disk 0 with files := s.files.erase name }
      path p name hname hothers hp
  refine h.of_around (fun c => ⟨rfl, rfl, fun halive => ⟨halive, fun _ h => h⟩,
    fun r hr hthere => ?_, fun _ _ h => h⟩) h.temp h.locks h.dropped fun p hp => ⟨hp, htree p ?_⟩
  · rw [htree]
    · exact hthere
    · rintro heq
      refine h.not_deleting hat (Pc.rooted_of_busy (Pc.busy_of_holding hr)) ?_
      rw [heq]
  · rintro rfl
    exact hinvalid hp

/-- It deletes a lock file that nobody has open. -/
theorem Inv.unlinkLock (h : Inv s) {path : StorePath}
    (hfree : ∀ c, (s.locks.pc c).path ≠ some path) :
    Inv { s with locks := s.locks.unlink path } :=
  h.of_around (fun _ => ⟨rfl, rfl, fun halive => ⟨halive, fun _ h => h⟩, fun _ _ h => h,
    fun _ _ h => h⟩) h.temp (h.locks.remove hfree) h.dropped fun _ hp => ⟨hp, rfl⟩

theorem Inv.deleteLock (h : Inv s) {path : StorePath}
    (hat : s.temp.collector = .deleting path.hashPart) :
    Inv { s with locks := s.locks.unlink path } := by
  refine h.unlinkLock fun c hpath => ?_
  obtain ⟨r, hr, heq⟩ := (h.procs c).busy path hpath
  refine h.not_deleting hat (Pc.rooted_of_busy hr) ?_
  rw [heq]

/-- A lock file with the hash part of no root is one that nobody has open. -/
theorem Inv.sweepLock (h : Inv s) {path : StorePath}
    (hok : TempRoots.Orderly store s.temp (.sweep (lockName path))) :
    Inv { s with locks := s.locks.unlink path } := by
  refine h.unlinkLock fun c hpath => ?_
  obtain ⟨r, hr, heq⟩ := (h.procs c).busy path hpath
  refine hok c r.path ((h.procs c).rooted r (Pc.rooted_of_busy hr)) ?_
  rw [heq]
  exact (List.take_prefix _ _).trans (List.prefix_append _ _)

theorem destroy_same {hash : Bytes} {t : TempRoots.State}
    (hstep : TempRoots.step store s.temp (.destroy hash) = some t) : t = s.temp := by
  simp only [TempRoots.step, TempRoots.collectorStep] at hstep
  split at hstep
  · cases hstep
    rfl
  · cases hstep

theorem sweep_same {name : Bytes} {t : TempRoots.State}
    (hstep : TempRoots.step store s.temp (.sweep name) = some t) : t = s.temp := by
  simp only [TempRoots.step, TempRoots.collectorStep] at hstep
  split at hstep
  · cases hstep
    rfl
  · cases hstep

/-- What a step keeps. -/
theorem Inv.step (h : Inv s) {a : Act store} (hok : Sound store s a) (hstep : step s a = some s') :
    Inv s' := by
  unfold Importers.step at hstep
  split at hstep
  -- the roots move; what was dropped is kept until the collector is done with it
  case h_6 a _ hdie _ _ _ =>
    obtain ⟨t, ht, rfl⟩ := Option.map_eq_some_iff.mp hstep
    refine h.tempStep hok ht (fun c hc => hdie c hc) ?_
    split
    · exact Or.inl rfl
    · exact Or.inl rfl
    · next hreset hstop => exact Or.inr ⟨rfl, hreset, hstop⟩
  -- a new process comes with an empty cache
  case h_7 c size =>
    obtain ⟨t, ht, rfl⟩ := Option.map_eq_some_iff.mp hstep
    have hstart : TempRoots.Orderly store s.temp (.start c) := trivial
    have hmoved : Inv { s with temp := t } :=
      h.tempStep hstart ht nofun (Or.inr ⟨rfl, nofun, nofun⟩)
    exact hmoved.of_around (fun c => ⟨rfl, rfl, fun halive => ⟨halive, fun _ h => h⟩,
      fun _ _ h => h, fun _ _ h => h⟩) hmoved.temp hmoved.locks hmoved.dropped fun p hp => ⟨hp, rfl⟩
  case h_8 c =>
    cases hstep
    exact h.die hok.1 hok.2
  -- a query may fill the cache, and with what the database says
  case h_9 c q =>
    split at hstep
    · cases hstep
      rcases exec_cases (query_outcome q (s.disk c)) (fun _ => s.pc c) (s.pc c) with
        ⟨u, d, ⟨hdb, hfiles⟩, heq⟩ | ⟨e, d, ⟨hdb, hfiles⟩, heq⟩
      all_goals
        rw [heq]
        have hsame : (s.setDisk c d).setPc c (s.pc c) = s.setDisk c d := by
          unfold State.setPc
          rw [show (s.setDisk c d).pc = s.pc from rfl, Function.update_eq_self]
          rfl
        rw [hsame]
        exact h.look hdb hfiles
    · cases hstep
  case h_10 c r =>
    split at hstep
    · next hfree =>
        obtain ⟨t, ht, rfl⟩ := Option.map_eq_some_iff.mp hstep
        exact h.call hok hfree ht
    · cases hstep
  case h_11 c call => exact h.lockStep hok.1 hstep
  case h_12 c now => exact h.goStep hok hstep
  -- the collector: the row goes before the tree, and only `sweepLock` asks for no root
  case h_13 path =>
    obtain ⟨t, ht, hstep⟩ := Option.bind_eq_some_iff.mp hstep
    have hsame := destroy_same ht
    subst hsame
    split at hstep
    · next db hdb =>
        cases hstep
        exact h.invalidate (TempRoots.destroy_eq_some ht) hdb
    · cases hstep
  case h_14 path =>
    split at hstep
    · next hdropped =>
        cases hstep
        cases hname : DiskStore.realName path with
        | none => exact h
        | some name => exact h.deleteTree hdropped hname
    · cases hstep
  case h_15 path =>
    obtain ⟨t, ht, rfl⟩ := Option.map_eq_some_iff.mp hstep
    have hsame := destroy_same ht
    subst hsame
    exact h.deleteLock (TempRoots.destroy_eq_some ht)
  case h_16 path =>
    obtain ⟨t, ht, rfl⟩ := Option.map_eq_some_iff.mp hstep
    have hsame := sweep_same ht
    subst hsame
    exact h.sweepLock hok
  all_goals cases hstep

/-- What holds in every state that sound steps lead to. -/
theorem inv_reachable (h : (system store).Reachable (Sound store) s) : Inv s :=
  h.invariant (fun _ => inv_initial) fun _ _ _ hI hok hstep => hI.step hok hstep

-- ============================================================================
-- What a call that returns has achieved
-- ============================================================================

/-- Only the process that moves comes to a new place. -/
theorem setPc_new {t : State store} {q : Pid} {pc pc' : Pc store} (ht : t.pc = s.pc)
    (hat : (t.setPc q pc).pc c = pc') (hnew : s.pc c ≠ pc') : q = c ∧ pc = pc' := by
  by_cases hq : q = c
  · subst hq
    exact ⟨rfl, (State.setPc_self t q pc).symm.trans hat⟩
  · have hold : t.pc c = pc' := (State.setPc_of_ne t pc (Ne.symm hq)).symm.trans hat
    rw [ht] at hold
    exact absurd hold hnew

theorem exec_new {α : Type} {x : DiskM α} {q : Pid} {next : α → Pc store} {failed pc' : Pc store}
    (hat : (s.exec q x next failed).pc c = pc') (hnew : s.pc c ≠ pc') :
    q = c ∧ ((∃ a d, x (s.disk q) = .ok a d ∧ next a = pc') ∨ failed = pc') := by
  unfold State.exec at hat
  cases hx : x (s.disk q) with
  | ok a d =>
      rw [hx] at hat
      obtain ⟨hq, hpc⟩ := setPc_new rfl hat hnew
      exact ⟨hq, Or.inl ⟨a, d, rfl, hpc⟩⟩
  | error e d =>
      rw [hx] at hat
      obtain ⟨hq, hpc⟩ := setPc_new rfl hat hnew
      exact ⟨hq, Or.inr hpc⟩

/-- A call returns from its first check, or when it closes its lock. -/
theorem returned_cases {a : Act store} {path : StorePath} (hstep : step s a = some s')
    (hat : s'.pc c = .returned path) (hnew : s.pc c ≠ .returned path) :
    (∃ now r, a = .go c now ∧ s.pc c = .checking r ∧ r.path = path) ∨
      ∃ r, a = .lock c .close ∧ s.pc c = .unlocking r true ∧ r.path = path := by
  unfold Importers.step at hstep
  split at hstep
  -- steps of the temporary roots and the start of a process: nobody's place changes
  case h_6 =>
    obtain ⟨t, -, rfl⟩ := Option.map_eq_some_iff.mp hstep
    exact absurd hat hnew
  case h_7 =>
    obtain ⟨t, -, rfl⟩ := Option.map_eq_some_iff.mp hstep
    exact absurd hat hnew
  -- `die`, `query` and `call` do not end at `returned`
  case h_8 =>
    cases hstep
    cases (setPc_new rfl hat hnew).2
  case h_9 q query =>
    split at hstep
    · cases hstep
      obtain ⟨rfl, ⟨_, _, -, hpc⟩ | hpc⟩ := exec_new hat hnew
      · exact absurd hpc hnew
      · exact absurd hpc hnew
    · cases hstep
  case h_10 =>
    split at hstep
    · obtain ⟨t, -, rfl⟩ := Option.map_eq_some_iff.mp hstep
      cases (setPc_new rfl hat hnew).2
    · cases hstep
  -- of the calls on the lock only `close` changes the place
  case h_11 q call =>
    unfold Importers.lockStep at hstep
    split at hstep
    case h_1 =>
      split at hstep
      · obtain ⟨t, -, rfl⟩ := Option.map_eq_some_iff.mp hstep
        exact absurd hat hnew
      · cases hstep
    case h_9 r ok hpc =>
      obtain ⟨t, -, rfl⟩ := Option.map_eq_some_iff.mp hstep
      obtain ⟨rfl, hreturned⟩ := setPc_new rfl hat hnew
      cases ok with
      | true =>
          cases hreturned
          exact Or.inr ⟨r, rfl, hpc, rfl⟩
      | false => cases hreturned
    case h_10 => cases hstep
    all_goals
      obtain ⟨t, -, rfl⟩ := Option.map_eq_some_iff.mp hstep
      exact absurd hat hnew
  -- of the pieces of `addToStore` only the first check does
  case h_12 q now =>
    unfold Importers.goStep at hstep
    split at hstep
    · split at hstep
      · cases hstep
        cases (setPc_new rfl hat hnew).2
      · cases hstep
    · next r hpc =>
        cases hstep
        obtain ⟨rfl, ⟨b, d, -, hb⟩ | hfailed⟩ := exec_new hat hnew
        · cases b with
          | true => cases hb
          | false =>
              cases hb
              exact Or.inl ⟨now, r, rfl, hpc, rfl⟩
        · cases hfailed
    · split at hstep
      · cases hstep
        cases (setPc_new rfl hat hnew).2
      · cases hstep
    · cases hstep
      obtain ⟨rfl, ⟨b, d, -, hb⟩ | hfailed⟩ := exec_new hat hnew
      · cases b
        all_goals cases hb
      · cases hfailed
    · cases hstep
      obtain ⟨rfl, ⟨b, d, -, hb⟩ | hfailed⟩ := exec_new hat hnew
      · cases hb
      · cases hfailed
    · cases hstep
      obtain ⟨rfl, ⟨b, d, -, hb⟩ | hfailed⟩ := exec_new hat hnew
      · cases hb
      · cases hfailed
    · cases hstep
      obtain ⟨rfl, ⟨b, d, -, hb⟩ | hfailed⟩ := exec_new hat hnew
      · cases hb
      · cases hfailed
    all_goals cases hstep
  -- the collector
  case h_13 =>
    obtain ⟨t, -, hstep⟩ := Option.bind_eq_some_iff.mp hstep
    split at hstep
    · cases hstep
      exact absurd hat hnew
    · cases hstep
  case h_14 =>
    split at hstep
    · cases hstep
      exact absurd hat hnew
    · cases hstep
  case h_15 =>
    obtain ⟨t, -, rfl⟩ := Option.map_eq_some_iff.mp hstep
    exact absurd hat hnew
  case h_16 =>
    obtain ⟨t, -, rfl⟩ := Option.map_eq_some_iff.mp hstep
    exact absurd hat hnew
  all_goals cases hstep

/-- A path that is valid, and that nobody is repairing, is there. -/
theorem Inv.there (h : Inv s) {path : StorePath} (hvalid : s.db.Valid (store.printStorePath path))
    (hrepair : NotRepaired s path) : s.tree path ≠ none := by
  rcases h.present path hvalid with htree | ⟨q, r, hq, heq⟩
  · exact htree
  · exact absurd heq (hrepair hvalid q r hq)

/-- In every run whose steps are sound, a path is valid and its tree is there
    when a call that adds it returns. -/
theorem addToStore_returns (s : State store) (h : (system store).Reachable (Sound store) s)
    (a : Act store) (hok : Sound store s a) (s' : State store) (hstep : step s a = some s')
    (c : Pid) (path : StorePath) (hat : s'.pc c = .returned path)
    (hnew : s.pc c ≠ .returned path) :
    s'.db.Valid (store.printStorePath path) ∧ s'.tree path ≠ none := by
  have hinv := inv_reachable h
  rcases returned_cases hstep hat hnew with ⟨now, r, rfl, hpc, rfl⟩ | ⟨r, rfl, hpc, rfl⟩
  · have hgo : s.exec c (DiskStore.wanted store r.repair r.path)
        (fun b => if b then .locking r else .returned r.path) .idle = s' := by
      simp only [step, goStep, hpc] at hstep
      exact Option.some.inj hstep
    rcases exec_cases (DiskStore.wanted_outcome r.repair r.path (s.disk c))
      (fun b => if b then .locking r else .returned r.path) .idle with
      ⟨b, d, ⟨hsame, hiff⟩, heq⟩ | ⟨e, d, hfalse, -⟩
    · rw [hgo] at heq
      cases b with
      | true =>
          rw [heq, State.setPc_self] at hat
          cases hat
      | false =>
          have hno := mt hiff.mpr Bool.false_ne_true
          rw [not_or, not_not] at hno
          obtain ⟨hrepair, hcached⟩ := hok.1 r hpc (Bool.eq_false_iff.mpr hno.1)
          -- what the process remembers is so
          have hvalid : s.db.Valid (store.printStorePath r.path) := by
            have hseems := hno.2
            unfold DiskStore.SeemsValid at hseems
            split at hseems
            · next value hfind =>
                obtain ⟨info, rfl⟩ := Option.isSome_iff_exists.mp hseems
                exact hcached info hfind
            · exact hseems
          have hthere := hinv.there hvalid hrepair
          rw [heq]
          refine ⟨?_, ?_⟩
          · show d.db.Valid _
            rw [hsame.db_eq]
            exact hvalid
          · show (DiskStore.realName r.path).bind d.files.lookup ≠ none
            rw [hsame.files_eq]
            exact hthere
    · exact hfalse.elim
  · have hvalid := (hinv.procs c).valid r hpc
    have hthere := hinv.there hvalid (hok.2 r rfl hpc)
    simp only [step, lockStep, hpc] at hstep
    obtain ⟨t, -, rfl⟩ := Option.map_eq_some_iff.mp hstep
    exact ⟨hvalid, hthere⟩

end Importers

namespace Importers

namespace Sample

open LocalStore.Sample (store pathA info)
open DiskStore.Sample (nameA)

/-- A database with one path. -/
def holdsA : Db where
  validPaths := [{ LocalStore.columns store 1 (info pathA ∅) with id := 1 }]
  refs := ∅
  derivationOutputs := []
  lastId := 1
  id_le := by decide +kernel
  ids_nodup := by decide +kernel
  paths_nodup := by decide +kernel
  refs_foreign := by decide +kernel
  outputs_foreign := by decide +kernel

/-- That path is there; nobody runs. -/
def storedA : State store where
  temp := TempRoots.Sample.start
  locks := PathLocks.initial
  db := holdsA
  files := Finmap.singleton nameA (.regular false [])
  caches := fun _ => LruCache.empty 10
  pc := fun _ => .idle
  dropped := none

theorem initial_storedA : Initial storedA where
  temp := TempRoots.Sample.initial_start
  locks := rfl
  pc := fun _ => rfl
  dropped := rfl
  present := by
    rintro p ⟨r, hr, hp⟩
    rw [List.mem_singleton.mp hr] at hp
    obtain rfl := store.printStorePath_inj (show store.printStorePath p = store.printStorePath pathA
      from hp.symm)
    unfold State.tree
    rw [DiskStore.Sample.realName_pathA]
    exact fun hnone => Option.some_ne_none _ (Finmap.lookup_singleton_eq.symm.trans hnone)

/-- The path is to be added. -/
def addA : Call store where
  addition := .source (info pathA ∅) []
  repair := false

/-- A process calls `addToStore`, up to the first check. -/
def calling : List (Act store) :=
  [.call 0 addA] ++ List.replicate 7 (.temp (.client 0)) ++ [.go 0 0]

/-- A collector deletes the path. -/
def collecting : List (Act store) :=
  [.temp .lock, .temp .serve, .temp (.list []), .temp .read, .temp (.visit pathA.hashPart),
    .temp (.recheck pathA.hashPart), .invalidate pathA, .deleteTree pathA, .temp .reset,
    .temp .stop, .temp .unlock]

/-- A check of the steps of a call. -/
def sound (s : State store) : Act store → Bool
  | .temp a => TempRoots.Sample.orderly store s.temp a
  | .start _ _ => true
  | .call _ r => decide (LocalStore.Readable r.path) && !(store.printStorePath r.path).contains 0x0a
  | .go c _ =>
      match s.pc c with
      | .rooting _ => true
      | _ => false
  | _ => false

theorem sound_sound (s : State store) (a : Act store) (h : sound s a = true) : Sound store s a := by
  cases a with
  | temp a => exact TempRoots.Sample.orderly_sound s.temp a h
  | call c r =>
      simp only [sound, Bool.and_eq_true, decide_eq_true_eq, Bool.not_eq_true',
        List.contains_eq_mem, decide_eq_false_iff_not] at h
      exact h
  | go c now =>
      refine ⟨fun r hr => ?_, fun r hr => ?_⟩
      · simp only [sound, hr] at h
        cases h
      · simp only [sound, hr] at h
        cases h
  | start c size => trivial
  | die _ | query _ _ | lock _ _ | invalidate _ | deleteTree _ | deleteLock _
  | sweepLock _ => cases h

end Sample

open LocalStore.Sample (store pathA)
open Sample

/-- Whether a process has returned, and for which path. -/
def Pc.result : Pc store → Option StorePath
  | .returned path => some path
  | _ => none

theorem Pc.eq_returned {pc : Pc store} {path : StorePath} (h : pc.result = some path) :
    pc = .returned path := by
  cases pc
  case returned path' =>
    cases h
    rfl
  all_goals cases h

/-- A process that has never asked adds a path that is there. -/
theorem addToStore_returns_present : ∃ s s' : State store,
    (system store).Reachable (Sound store) s ∧ Sound store s (.go 0 0) ∧
    step s (.go 0 0) = some s' ∧ s'.pc 0 = .returned pathA ∧ s.pc 0 ≠ .returned pathA ∧
    s'.db.Valid (store.printStorePath pathA) ∧ s'.tree pathA ≠ none := by
  obtain ⟨s, hrun, hat⟩ : ∃ s, (system store).runChecked sound (.start 0 10 :: calling) storedA
      = some s ∧ (s.pc, s.caches 0, s.db) = (Function.update (Function.update (fun _ => .idle) 0
        (.rooting addA)) 0 (.checking addA), LruCache.empty 10, holdsA) := by
    refine Option.map_eq_some_iff.mp ?_
    rfl
  obtain ⟨s', hstep, hreturned⟩ : ∃ s', step s (.go 0 0) = some s' ∧
      (s'.pc 0).result = some pathA := by
    have hboth : ((system store).runChecked sound (.start 0 10 :: calling) storedA).bind
        (fun s => (step s (.go 0 0)).map fun s' => (s'.pc 0).result) = some (some pathA) := by
      decide +kernel
    rw [hrun] at hboth
    exact Option.map_eq_some_iff.mp hboth
  obtain ⟨hpc, hat⟩ := Prod.mk.inj hat
  obtain ⟨hcache, hdb⟩ := Prod.mk.inj hat
  have hchecking : s.pc 0 = .checking addA := by
    rw [hpc]
    exact Function.update_self _ _ _
  have h := System.Reachable.runChecked sound_sound (.init initial_storedA) hrun
  -- nobody else has begun, and nothing is remembered
  have hok : Sound store s (.go 0 0) := by
    refine ⟨fun r hr _ => ⟨fun _ q r' hq => ?_, fun info hinfo => ?_⟩, fun r hr => ?_⟩
    · rw [hpc] at hq
      by_cases hzero : q = 0
      · subst hzero
        rw [Function.update_self] at hq
        cases hq
      · rw [Function.update_of_ne hzero, Function.update_of_ne hzero] at hq
        cases hq
    · rw [hcache] at hinfo
      cases hinfo
    · cases hchecking.symm.trans hr
  have hnew : s.pc 0 ≠ .returned pathA := by
    rw [hchecking]
    nofun
  have hback := Pc.eq_returned hreturned
  exact ⟨s, s', h, hok, hstep, hback, hnew,
    addToStore_returns s h (.go 0 0) hok s' hstep 0 pathA hback hnew⟩

/-- A process that has asked for the path before it was deleted returns at once:
    the path is not valid, and there is no tree. -/
theorem addToStore_returns_stale : Initial storedA ∧ ∃ s s' : State store,
    (system store).run ([.start 0 10, .query 0 (.queryPathInfo pathA)] ++ collecting ++ calling)
      storedA = some s ∧ step s (.go 0 0) = some s' ∧
    s.pc 0 ≠ .returned pathA ∧ s'.pc 0 = .returned pathA ∧
    ¬ (s'.db.Valid (store.printStorePath pathA) ∧ s'.tree pathA ≠ none) := by
  refine ⟨initial_storedA, ?_⟩
  have hboth : ((system store).run ([.start 0 10, .query 0 (.queryPathInfo pathA)] ++ collecting ++
      calling) storedA).bind (fun s => (step s (.go 0 0)).map fun s' =>
        ((s.pc 0).result, (s'.pc 0).result, decide (s'.db.Valid (store.printStorePath pathA))))
      = some (none, some pathA, false) := by
    decide +kernel
  obtain ⟨s, hrun, hstep⟩ := Option.bind_eq_some_iff.mp hboth
  obtain ⟨s', hstep, hat⟩ := Option.map_eq_some_iff.mp hstep
  obtain ⟨hbefore, hat⟩ := Prod.mk.inj hat
  obtain ⟨hafter, hinvalid⟩ := Prod.mk.inj hat
  refine ⟨s, s', hrun, hstep, fun hreturned => ?_, Pc.eq_returned hafter, fun h => ?_⟩
  · rw [hreturned] at hbefore
    cases hbefore
  · exact of_decide_eq_false hinvalid h.1

end Importers
end NixStore
