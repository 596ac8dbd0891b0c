/-
  NixStore.Store.TempRoots

  Temporary roots: `addTempRoot`, `createTempRootsFile` and `findTempRoots`, and
  the root server of `collectGarbage` (`libstore/gc.cc`).

  A client makes its root known in one of two ways.  Under a shared lock on the
  GC lock file, which keeps collectors out, it appends the root to its file in
  `temproots`.  If a collector has the lock, the client sends the root to the
  socket of the collector, waits for the answer, and appends to its file then.
  By that time the collector that has answered may be gone, and the next one may
  have read the file already.

  The collector is modelled as far as its lock, its server and its reading of
  the files go; which paths it looks at and deletes is open, so that what holds
  here holds for every order of them.
-/

import NixStore.Lib.Transition
import NixStore.Store.ReadBack

namespace NixStore
namespace TempRoots

abbrev Pid := Nat

-- ============================================================================
-- Clients, files and the collector
-- ============================================================================

/-- Who has the lock on a temporary roots file. -/
inductive Holder where
  | client (c : Pid)
  | collector
deriving DecidableEq

/-- A temporary roots file: the strings in it, whether a collector has written
    its mark, and the lock. -/
structure TempFile where
  roots : List Bytes
  marked : Bool
  lock : Option Holder
deriving DecidableEq

/-- The call that `addTempRoot` makes next. -/
inductive ClientPc where
  | idle
  /-- `tryUnlink(fnTempRoots)`, if it exists. -/
  | create (path : StorePath)
  /-- `openLockFile(fnTempRoots, true)`. -/
  | openFile (path : StorePath)
  /-- `lockFile(fdTempRoots->get(), ltWrite, true)`. -/
  | lockFile (path : StorePath) (i : Nat)
  /-- `getFileSize(fdTempRoots->get())`. -/
  | fstat (path : StorePath) (i : Nat)
  /-- `FdLock(…, ltRead, false, "")`. -/
  | tryLock (path : StorePath)
  | connect (path : StorePath)
  /-- `writeFull` to the socket. -/
  | send (path : StorePath)
  /-- `readFull`, before the server has read the root. -/
  | sent (path : StorePath)
  /-- `readFull`, before the server has answered. -/
  | received (path : StorePath)
  /-- `readFull`, with the answer in the socket. -/
  | acked (path : StorePath)
  /-- `writeFull` to the file, after the answer of a run of the collector or
      under the lock. -/
  | append (path : StorePath) (via : Option Nat)
  /-- The destructor of `FdLock`, and the return. -/
  | release (path : StorePath)
deriving DecidableEq

/-- A process that calls `addTempRoot`. -/
structure Client where
  alive : Bool
  /-- `_fdTempRoots`. -/
  fd : Option Nat
  /-- `_fdRootsSocket`: the run of the collector it is connected to. -/
  socket : Option Nat
  pc : ClientPc
  /-- The paths for which `addTempRoot` has returned. -/
  rooted : List StorePath

/-- A process that has not called anything. -/
def Client.new : Client where
  alive := true
  fd := none
  socket := none
  pc := .idle
  rooted := []

/-- Where the collector is. -/
inductive CollectorPc where
  /-- No collector has the GC lock. -/
  | idle
  | locked
  /-- The socket is there. -/
  | serving
  /-- In `findTempRoots`, with the files that are left. -/
  | reading (rest : List Pid)
  /-- A file has been opened. -/
  | opened (c : Pid) (i : Nat) (rest : List Pid)
  /-- `lockFile` has succeeded: the file is stale. -/
  | stale (c : Pid) (i : Nat) (rest : List Pid)
  /-- The stale file has been unlinked. -/
  | unlinked (i : Nat) (rest : List Pid)
  | scanning
  /-- The temporary roots have been checked again, and the path with this hash
      part is being invalidated and deleted. -/
  | deleting (hashPart : Bytes)
  /-- The server has been joined. -/
  | stopped
deriving DecidableEq

/-- Whether the server takes connections. -/
def CollectorPc.serverUp : CollectorPc → Bool
  | .idle | .locked | .stopped => false
  | _ => true

/-- The files, the locks, the clients and the collector. -/
structure State where
  /-- The inodes of `temproots/<pid>`. -/
  names : Pid → Option Nat
  files : Nat → TempFile
  nextFile : Nat
  clients : Pid → Client
  /-- Who has a shared GC lock. -/
  shared : Finset Pid
  /-- The number of the current run of the collector, or of the last one. -/
  run : Nat
  collector : CollectorPc
  /-- `Shared::tempRoots`. -/
  tempRoots : Finset Bytes
  /-- `Shared::pending`. -/
  pending : Option Bytes

namespace State

/-- A client changes. -/
def setClient (s : State) (c : Pid) (x : Client) : State :=
  { s with clients := Function.update s.clients c x }

/-- A client moves on. -/
def goto (s : State) (c : Pid) (pc : ClientPc) : State :=
  s.setClient c { s.clients c with pc }

/-- A file changes. -/
def setFile (s : State) (i : Nat) (f : TempFile) : State :=
  { s with files := Function.update s.files i f }

/-- A name changes. -/
def setName (s : State) (c : Pid) (i : Option Nat) : State :=
  { s with names := Function.update s.names c i }

end State

-- ============================================================================
-- Steps
-- ============================================================================

variable (store : StoreDirConfig)

/-- `openLockFile`: the file of that name, or a new one. -/
def openTemp (s : State) (c : Pid) : Nat × State :=
  match s.names c with
  | some i => (i, s)
  | none => (s.nextFile, { (s.setName c (some s.nextFile)).setFile s.nextFile
      { roots := [], marked := false, lock := none } with nextFile := s.nextFile + 1 })

/-- The next call of `addTempRoot`. -/
def clientStep (s : State) (c : Pid) : Option State :=
  let x := s.clients c
  if x.alive = false then none
  else
  match x.pc with
  | .idle => none
  | .create path => some ((s.setName c none).goto c (.openFile path))
  | .openFile path =>
      let r := openTemp s c
      some (r.2.goto c (.lockFile path r.1))
  | .lockFile path i =>
      if (s.files i).lock = none then
        some ((s.setFile i { s.files i with lock := some (.client c) }).goto c (.fstat path i))
      else none
  | .fstat path i =>
      if (s.files i).marked ∨ (s.files i).roots ≠ [] then
        -- the loop assigns to `fdTempRoots` again, which closes the file
        some ((s.setFile i { s.files i with lock := none }).goto c (.create path))
      else some (s.setClient c { x with fd := some i, pc := .tryLock path })
  | .tryLock path =>
      if s.collector = .idle then
        some ({ s with shared := insert c s.shared }.goto c (.append path none))
      else some (s.goto c (if x.socket = none then .connect path else .send path))
  | .connect path =>
      if s.collector.serverUp then
        some (s.setClient c { x with socket := some s.run, pc := .send path })
      else some (s.goto c (.tryLock path))
  | .send path =>
      if s.collector.serverUp ∧ x.socket = some s.run then some (s.goto c (.sent path))
      else some (s.setClient c { x with socket := none, pc := .tryLock path })
  | .sent path | .received path =>
      if s.collector.serverUp ∧ x.socket = some s.run then none
      else some (s.setClient c { x with socket := none, pc := .tryLock path })
  | .acked path => some (s.goto c (.append path x.socket))
  | .append path _ =>
      match x.fd with
      | none => none
      | some i => some ((s.setFile i { s.files i with
          roots := (s.files i).roots ++ [store.printStorePath path] }).goto c (.release path))
  | .release path => some ({ s with shared := s.shared.erase c }.setClient c
      { x with pc := .idle, rooted := path :: x.rooted })

/-- `createTempRootsFile` goes on without the lock on the file. -/
def interruptedStep (s : State) (c : Pid) : Option State :=
  match (s.clients c).pc with
  | .lockFile path i =>
      if (s.clients c).alive then some (s.goto c (.fstat path i)) else none
  | _ => none

/-- The call of `addTempRoot`. -/
def beginStep (s : State) (c : Pid) (path : StorePath) : Option State :=
  let x := s.clients c
  if x.alive = true ∧ x.pc = .idle then
    some (s.goto c (if x.fd = none then .create path else .tryLock path))
  else none

/-- The end of a process: the kernel drops its locks and closes its socket. -/
def dieStep (s : State) (c : Pid) : State :=
  { s with
    clients := Function.update s.clients c { Client.new with alive := false }
    shared := s.shared.erase c
    files := fun i =>
      if (s.files i).lock = some (.client c) then { s.files i with lock := none } else s.files i }

/-- The hash part of the root in the first line of a text, unless it is garbage. -/
def lineRoot (text : Bytes) : Option Bytes :=
  match store.parseStorePath (text.takeWhile (· ≠ 0x0a)) with
  | .ok path => some path.hashPart
  | .error _ => none

/-- A thread of the server reads a root. -/
def receiveStep (s : State) (c : Pid) : Option State :=
  match (s.clients c).pc with
  | .sent path =>
      if s.collector.serverUp ∧ (s.clients c).socket = some s.run then
        some ({ s with tempRoots :=
          match lineRoot store (store.printStorePath path) with
          | some hashPart => insert hashPart s.tempRoots
          | none => s.tempRoots }.goto c (.received path))
      else none
  | _ => none

/-- It answers, unless the path is being deleted. -/
def ackStep (s : State) (c : Pid) : Option State :=
  match (s.clients c).pc with
  | .received path =>
      let hashPart := lineRoot store (store.printStorePath path)
      if s.collector.serverUp ∧ (s.clients c).socket = some s.run ∧
          (hashPart = none ∨ s.pending ≠ hashPart) then
        some (s.goto c (.acked path))
      else none
  | _ => none

/-- The hash parts of the roots in a file. -/
def readRoots : List Bytes → Except Error (Finset Bytes)
  | [] => .ok ∅
  | t :: ts => do
      let path ← store.parseStorePath t
      let rest ← readRoots ts
      pure (insert path.hashPart rest)

/-- The next call of `findTempRoots`.  An exception ends the run. -/
def readStep (s : State) : Option State :=
  match s.collector with
  | .reading [] => some { s with collector := .scanning }
  | .reading (c :: rest) =>
      match s.names c with
      | none => some { s with collector := .reading rest }
      | some i => some { s with collector := .opened c i rest }
  | .opened c i rest =>
      if (s.files i).lock = none then
        some { s.setFile i { s.files i with lock := some .collector } with
          collector := .stale c i rest }
      else
        match readRoots store (s.files i).roots with
        | .ok roots => some { s with tempRoots := s.tempRoots ∪ roots, collector := .reading rest }
        | .error _ => some { s with collector := .stopped }
  | .stale c i rest => some { s.setName c none with collector := .unlinked i rest }
  | .unlinked i rest =>
      some { s.setFile i { s.files i with marked := true, lock := none } with
        collector := .reading rest }
  | _ => none

/-- What the processes do. -/
inductive Act where
  | begin (c : Pid) (path : StorePath)
  | client (c : Pid)
  /-- The `flock` in `createTempRootsFile` returns `EINTR`: `lockFile` returns false,
      which nobody looks at. -/
  | interrupted (c : Pid)
  | die (c : Pid)
  /-- A new process with the number of one that is gone. -/
  | start (c : Pid)
  | receive (c : Pid)
  | ack (c : Pid)
  /-- `FdLock` of `collectGarbage`. -/
  | lock
  /-- Its `flock` returns `EINTR`, and it goes on without the lock. -/
  | lockInterrupted
  | serve
  /-- The entries of `temproots`, as the directory is read. -/
  | list (pids : List Pid)
  | read
  /-- The check of a path that is visited. -/
  | visit (hashPart : Bytes)
  /-- The check of a path that is to be deleted. -/
  | recheck (hashPart : Bytes)
  /-- `invalidatePathChecked`, or `deleteFromStore`. -/
  | destroy (hashPart : Bytes)
  /-- `deleteFromStore` of an entry whose name is not that of a store path, for which
      nobody looks at the temporary roots. -/
  | sweep (name : Bytes)
  /-- `resetPending` or `releasePending`. -/
  | reset
  /-- `stopServer`, at the end or after an exception. -/
  | stop
  | unlock

/-- What the collector does. -/
def collectorStep (s : State) : Act → Option State
  | .lock =>
      if s.collector = .idle ∧ s.shared = ∅ then
        some { s with run := s.run + 1, collector := .locked, tempRoots := ∅, pending := none }
      else none
  | .lockInterrupted =>
      -- another collector may even be running, which is not followed here
      if s.collector = .idle then
        some { s with run := s.run + 1, collector := .locked, tempRoots := ∅, pending := none }
      else none
  | .serve => if s.collector = .locked then some { s with collector := .serving } else none
  | .list pids =>
      if s.collector = .serving then some { s with collector := .reading pids } else none
  | .read => readStep store s
  | .visit h =>
      if s.collector = .scanning then
        some { s with pending := if h ∈ s.tempRoots then s.pending else some h }
      else none
  | .recheck h =>
      if s.collector = .scanning then
        if h ∈ s.tempRoots then some s
        else some { s with pending := some h, collector := .deleting h }
      else none
  | .destroy h => if s.collector = .deleting h then some s else none
  | .sweep name =>
      if s.collector = .scanning ∧
          (store.parseStorePath (store.text ++ ascii "/" ++ name)).toOption = none then
        some s
      else none
  | .reset =>
      match s.collector with
      | .scanning | .deleting _ => some { s with pending := none, collector := .scanning }
      | _ => none
  | .stop =>
      match s.collector with
      -- `tryUnlink` and `writeFull` of a stale file are taken to succeed
      | .stale _ _ _ | .unlinked _ _ => none
      | pc => if pc.serverUp then some { s with collector := .stopped } else none
  | .unlock =>
      if s.collector = .locked ∨ s.collector = .stopped then some { s with collector := .idle }
      else none
  | _ => none

/-- What an action does. -/
def step (s : State) : Act → Option State
  | .begin c path => beginStep s c path
  | .client c => clientStep store s c
  | .interrupted c => interruptedStep s c
  | .die c => some (dieStep s c)
  | .start c =>
      if (s.clients c).alive then none else some (s.setClient c Client.new)
  | .receive c => receiveStep store s c
  | .ack c => ackStep store s c
  | a => collectorStep store s a

/-- Nobody runs; there may be files of processes that are gone. -/
structure Initial (s : State) : Prop where
  clients : ∀ c, (s.clients c).alive = false ∧ (s.clients c).fd = none ∧
    (s.clients c).pc = .idle ∧ (s.clients c).socket = none ∧ (s.clients c).rooted = []
  shared : s.shared = ∅
  collector : s.collector = .idle
  names : ∀ c i, s.names c = some i → i < s.nextFile
  files : ∀ i, (s.files i).lock = none

/-- Any number of clients, and one collector after another. -/
def system : System State Act where
  init := Initial
  step := step store

-- ============================================================================
-- Invariant
-- ============================================================================

/-- A path whose text is one line, and is read back from it and from the file. -/
def Sendable (p : StorePath) : Prop :=
  LocalStore.Readable p ∧ 0x0a ∉ store.printStorePath p

/-- The collector will still read the file of a client in this run, or there is
    no run that deletes anything. -/
def Unread (s : State) (c : Pid) : Prop :=
  match s.collector with
  | .idle | .locked | .serving | .stopped => True
  | .reading rest | .stale _ _ rest | .unlinked _ rest => c ∈ rest
  | .opened c' i rest => c ∈ rest ∨ c = c' ∧ (s.clients c).fd = some i
  | .scanning | .deleting _ => False

/-- A root that the collector knows and is not deleting. -/
def Heard (s : State) (p : StorePath) : Prop :=
  s.collector.serverUp = true → p.hashPart ∈ s.tempRoots ∧
    ∀ h, s.collector = .deleting h → p.hashPart ≠ h

/-- A process has a connection to a run of the collector, or an answer of it. -/
def Client.Knows (x : Client) (r : Nat) : Prop :=
  x.socket = some r ∨ ∃ p, x.pc = .append p (some r)

/-- A file that `createTempRootsFile` has opened: it has the name still, or it is
    marked, or it will be before anyone else gets the lock. -/
def Candidate (s : State) (c : Pid) (i : Nat) : Prop :=
  i < s.nextFile ∧
  (s.names c = some i ∨ (s.files i).marked = true ∨ ∃ rest, s.collector = .unlinked i rest)

/-- What a process has found out. -/
def PcOk (s : State) (c : Pid) (x : Client) : Prop :=
  match x.pc with
  | .idle => True
  | .create p | .openFile p => Sendable store p ∧ x.fd = none
  | .lockFile p i => Sendable store p ∧ x.fd = none ∧ Candidate s c i
  | .fstat p i => Sendable store p ∧ x.fd = none ∧ Candidate s c i ∧
      (s.files i).lock = some (.client c)
  | .tryLock p | .connect p => Sendable store p
  | .send p | .sent p => Sendable store p ∧ x.socket ≠ none
  | .received p => Sendable store p ∧ x.socket ≠ none ∧
      (x.socket = some s.run → s.collector.serverUp = true → p.hashPart ∈ s.tempRoots)
  | .acked p => Sendable store p ∧ x.socket ≠ none ∧ (x.socket = some s.run → Heard s p)
  | .append p none => Sendable store p ∧ c ∈ s.shared
  | .append p (some r) => Sendable store p ∧ r ≤ s.run ∧ (r = s.run → Heard s p)
  | .release p => Sendable store p ∧ ∃ i, x.fd = some i ∧ store.printStorePath p ∈ (s.files i).roots

/-- The file of a process: it has its name and its lock, and the collector knows
    what is in it or will read it. -/
structure FileOk (s : State) (c : Pid) (x : Client) : Prop where
  held : ∀ i, x.fd = some i →
    (s.files i).lock = some (.client c) ∧ s.names c = some i ∧ i < s.nextFile
  rooted : ∀ p ∈ x.rooted, ∃ i, x.fd = some i ∧ store.printStorePath p ∈ (s.files i).roots
  covered : ∀ i t, x.fd = some i → t ∈ (s.files i).roots →
    ∃ p, Sendable store p ∧ t = store.printStorePath p ∧ (Unread s c ∨ p.hashPart ∈ s.tempRoots) ∧
      ∀ h, s.collector = .deleting h → p.hashPart ≠ h

/-- What holds of a process. -/
structure ClientOk (s : State) (c : Pid) : Prop where
  pc : PcOk store s c (s.clients c)
  file : FileOk store s c (s.clients c)
  socket : ∀ r, (s.clients c).socket = some r → r ≤ s.run
  /-- Nobody knows a run whose server has not been started. -/
  unknown : s.collector = .locked → ¬ (s.clients c).Knows s.run

/-- What holds in every state. -/
structure Inv (s : State) : Prop where
  clients : ∀ c, ClientOk store s c
  shared : ∀ c ∈ s.shared, s.collector = .idle
  names : ∀ c i, s.names c = some i → i < s.nextFile
  locked : ∀ i, (s.files i).lock ≠ none → i < s.nextFile
  opened : ∀ c i rest, s.collector = .opened c i rest → i < s.nextFile
  stale : ∀ c i rest, s.collector = .stale c i rest → (s.files i).lock = some .collector
  unlinked : ∀ i rest, s.collector = .unlinked i rest → (s.files i).lock = some .collector
  pending : ∀ h, s.collector = .deleting h → s.pending = some h

variable {store} {s s' : State} {c : Pid}

theorem inv_initial (h : Initial s) : Inv store s where
  clients c := by
    obtain ⟨-, hfd, hpc, hsocket, hrooted⟩ := h.clients c
    refine ⟨?_, ⟨?_, ?_, ?_⟩, ?_, fun hlocked => ?_⟩
    · rw [PcOk, hpc]
      trivial
    · rw [hfd]
      nofun
    · rw [hrooted]
      nofun
    · rw [hfd]
      nofun
    · rw [hsocket]
      nofun
    · cases h.collector.symm.trans hlocked
  shared c _ := h.collector
  names := h.names
  locked i hi := absurd (h.files i) hi
  opened c i rest hpc := by cases h.collector.symm.trans hpc
  stale c i rest hpc := by cases h.collector.symm.trans hpc
  unlinked i rest hpc := by cases h.collector.symm.trans hpc
  pending h' hpc := by cases h.collector.symm.trans hpc

-- ============================================================================
-- Steps of clients
-- ============================================================================

variable (store) in
/-- What a step may do around a process. -/
structure Around (s s' : State) (c : Pid) : Prop where
  client : s'.clients c = s.clients c
  name : ∀ i, (s.clients c).fd = some i → s'.names c = s.names c
  files : ∀ i, (s.files i).lock = some (.client c) → s'.files i = s.files i
  nextFile : s.nextFile ≤ s'.nextFile
  candidate : ∀ i, Candidate s c i → Candidate s' c i
  run : s.run ≤ s'.run
  received : (s.clients c).Knows s.run → s'.run = s.run → s'.collector.serverUp = true →
    s.collector.serverUp = true ∧ s.tempRoots ⊆ s'.tempRoots
  heard : (s.clients c).Knows s.run → s'.run = s.run → ∀ p, Heard s p → Heard s' p
  unknown : s'.collector = .locked → s.collector = .locked ∧ s'.run = s.run ∨ s.run < s'.run
  shared : c ∈ s.shared → c ∈ s'.shared
  covered : ∀ i p, (s.clients c).fd = some i → store.printStorePath p ∈ (s.files i).roots →
    Sendable store p → (Unread s c ∨ p.hashPart ∈ s.tempRoots) →
    (∀ h, s.collector = .deleting h → p.hashPart ≠ h) →
    (Unread s' c ∨ p.hashPart ∈ s'.tempRoots) ∧ ∀ h, s'.collector = .deleting h → p.hashPart ≠ h

/-- A process that takes no part in a step. -/
theorem ClientOk.around (hok : ClientOk store s c) (h : Around store s s' c) :
    ClientOk store s' c := by
  obtain ⟨hpc, ⟨hheld, hrooted, hcovered⟩, hsocket, hunknown⟩ := hok
  have hfile : ∀ i, (s.clients c).fd = some i → s'.files i = s.files i :=
    fun i hi => h.files i (hheld i hi).1
  -- a run that a process has heard of is not a later one
  have hrun : ∀ r, r ≤ s.run → r = s'.run → s'.run = s.run := by
    intro r hle heq
    have hmono := h.run
    omega
  have hknown : (s.clients c).Knows s'.run → s'.run = s.run := by
    rintro (hr | ⟨p, hat⟩)
    · exact hrun _ (hsocket _ hr) rfl
    · unfold PcOk at hpc
      rw [hat] at hpc
      exact hrun _ hpc.2.1 rfl
  refine ⟨?_, ⟨?_, ?_, ?_⟩, ?_, ?_⟩
  · rw [h.client]
    unfold PcOk at hpc ⊢
    split
    · trivial
    all_goals rename_i hat
    all_goals simp only [hat] at hpc
    · exact hpc
    · exact hpc
    · exact ⟨hpc.1, hpc.2.1, h.candidate _ hpc.2.2⟩
    · refine ⟨hpc.1, hpc.2.1, h.candidate _ hpc.2.2.1, ?_⟩
      rw [h.files _ hpc.2.2.2]
      exact hpc.2.2.2
    · exact hpc
    · exact hpc
    · exact hpc
    · exact hpc
    · refine ⟨hpc.1, hpc.2.1, fun hr hup => ?_⟩
      have hsame := hknown (.inl hr)
      rw [hsame] at hr
      obtain ⟨hup', hmem⟩ := h.received (.inl hr) hsame hup
      exact hmem (hpc.2.2 hr hup')
    · refine ⟨hpc.1, hpc.2.1, fun hr => ?_⟩
      have hsame := hknown (.inl hr)
      rw [hsame] at hr
      exact h.heard (.inl hr) hsame _ (hpc.2.2 hr)
    · exact ⟨hpc.1, h.shared hpc.2⟩
    · refine ⟨hpc.1, hpc.2.1.trans h.run, fun hr => ?_⟩
      have hsame := hrun _ hpc.2.1 hr
      rw [hsame] at hr
      exact h.heard (.inr ⟨_, hr ▸ hat⟩) hsame _ (hpc.2.2 hr)
    · obtain ⟨hp, i, hi, hmem⟩ := hpc
      refine ⟨hp, i, hi, ?_⟩
      rw [hfile i hi]
      exact hmem
  · intro i hi
    rw [h.client] at hi
    obtain ⟨hlock, hname, hlt⟩ := hheld i hi
    rw [hfile i hi, h.name i hi]
    exact ⟨hlock, hname, Nat.lt_of_lt_of_le hlt h.nextFile⟩
  · intro p hp
    rw [h.client] at hp ⊢
    obtain ⟨i, hi, hmem⟩ := hrooted p hp
    refine ⟨i, hi, ?_⟩
    rw [hfile i hi]
    exact hmem
  · intro i t hi ht
    rw [h.client] at hi
    rw [hfile i hi] at ht
    obtain ⟨p, hp, rfl, hread, hne⟩ := hcovered i t hi ht
    obtain ⟨hread', hne'⟩ := h.covered i p hi ht hp hread hne
    exact ⟨p, hp, rfl, hread', hne'⟩
  · intro r hr
    rw [h.client] at hr
    exact (hsocket r hr).trans h.run
  · intro hlocked hknows
    rw [h.client] at hknows
    rcases h.unknown hlocked with ⟨hbefore, hsame⟩ | hlater
    · exact hunknown hbefore (hsame ▸ hknows)
    · have hsame := hknown hknows
      omega

/-- A step of another client. -/
theorem Around.of_client (hclient : s'.clients c = s.clients c) (hname : s'.names c = s.names c)
    (hfiles : ∀ i, (s.files i).lock = some (.client c) → s'.files i = s.files i)
    (hmarked : ∀ i, i < s.nextFile → (s.files i).marked = true → (s'.files i).marked = true)
    (hnext : s.nextFile ≤ s'.nextFile) (hrun : s'.run = s.run)
    (hcollector : s'.collector = s.collector) (htemp : s.tempRoots ⊆ s'.tempRoots)
    (hshared : c ∈ s.shared → c ∈ s'.shared) : Around store s s' c where
  client := hclient
  name _ _ := hname
  files := hfiles
  nextFile := hnext
  candidate i hi := by
    obtain ⟨hlt, hcases⟩ := hi
    refine ⟨Nat.lt_of_lt_of_le hlt hnext, ?_⟩
    rw [hname, hcollector]
    exact hcases.imp id (Or.imp (hmarked i hlt) id)
  run := hrun.ge
  received _ _ hup := ⟨hcollector ▸ hup, htemp⟩
  unknown hlocked := .inl ⟨hcollector ▸ hlocked, hrun⟩
  heard _ _ p hp hup := by
    rw [hcollector] at hup ⊢
    obtain ⟨hmem, hne⟩ := hp hup
    exact ⟨htemp hmem, hne⟩
  shared := hshared
  covered i p _ _ _ hread hne := by
    rw [hcollector]
    refine ⟨hread.imp (fun hu => ?_) (fun hmem => htemp hmem), hne⟩
    unfold Unread at hu ⊢
    rw [hcollector, hclient]
    exact hu

/-- A step of a client leaves the collector where it is. -/
theorem Inv.of_client (h : Inv store s) (hothers : ∀ c', c' ≠ c → Around store s s' c')
    (hmine : ClientOk store s' c) (hcollector : s'.collector = s.collector)
    (hpending : s'.pending = s.pending) (hshared : ∀ c' ∈ s'.shared, s.collector = .idle)
    (hnames : ∀ c i, s'.names c = some i → i < s'.nextFile)
    (hlocked : ∀ i, (s'.files i).lock ≠ none → i < s'.nextFile) (hnext : s.nextFile ≤ s'.nextFile)
    (hfiles : ∀ i, (s.files i).lock = some .collector → (s'.files i).lock = some .collector) :
    Inv store s' := by
  refine ⟨fun c' => ?_, ?_, hnames, hlocked, ?_, ?_, ?_, ?_⟩
  · by_cases hc : c' = c
    · rw [hc]
      exact hmine
    · exact (h.clients c').around (hothers c' hc)
  · rw [hcollector]
    exact hshared
  · intro c' i rest hpc
    rw [hcollector] at hpc
    exact Nat.lt_of_lt_of_le (h.opened c' i rest hpc) hnext
  · intro c' i rest hpc
    rw [hcollector] at hpc
    exact hfiles i (h.stale c' i rest hpc)
  · intro i rest hpc
    rw [hcollector] at hpc
    exact hfiles i (h.unlinked i rest hpc)
  · rw [hcollector, hpending]
    exact h.pending

/-- A step of a client that changes nothing but the client. -/
theorem Inv.setClient (h : Inv store s) {x : Client} (hpc : PcOk store s c x)
    (hfd : x.fd = (s.clients c).fd) (hrooted : x.rooted = (s.clients c).rooted)
    (hsocket : ∀ r, x.socket = some r → r ≤ s.run)
    (hunknown : s.collector = .locked → ¬ x.Knows s.run) : Inv store (s.setClient c x) := by
  have hself : (s.setClient c x).clients c = x := Function.update_self _ _ _
  refine h.of_client (c := c) (fun c' hc => ?_) ⟨?_, ⟨?_, ?_, ?_⟩, ?_, ?_⟩ rfl rfl h.shared h.names
    h.locked le_rfl (fun _ hi => hi)
  · exact .of_client (Function.update_of_ne hc _ _) rfl (fun _ _ => rfl) (fun _ _ hm => hm) le_rfl
      rfl rfl (fun _ hm => hm) id
  · rw [hself]
    exact hpc
  · rw [hself, hfd]
    exact (h.clients c).file.held
  · rw [hself, hfd, hrooted]
    exact (h.clients c).file.rooted
  · intro i t hi ht
    rw [hself, hfd] at hi
    obtain ⟨p, hp, heq, hread, hne⟩ := (h.clients c).file.covered i t hi ht
    refine ⟨p, hp, heq, hread.imp (fun hu => ?_) id, hne⟩
    unfold Unread at hu ⊢
    rw [hself, hfd]
    exact hu
  · rw [hself]
    exact hsocket
  · rw [hself]
    exact hunknown

/-- A process that has come to no answer knows no more runs than before. -/
theorem ClientOk.unknown_goto (h : ClientOk store s c) {x : Client}
    (hsocket : x.socket = (s.clients c).socket ∨ x.socket = none)
    (hpc : ∀ p r, x.pc ≠ .append p (some r)) : s.collector = .locked → ¬ x.Knows s.run := by
  rintro hlocked (hr | ⟨p, hat⟩)
  · rcases hsocket with hsame | hnone
    · exact h.unknown hlocked (.inl (hsame ▸ hr))
    · rw [hnone] at hr
      cases hr
  · exact hpc p s.run hat

/-- A client moves on. -/
theorem Inv.goto (h : Inv store s) {pc : ClientPc} (hpc : PcOk store s c { s.clients c with pc })
    (happend : ∀ p r, pc ≠ .append p (some r)) : Inv store (s.goto c pc) :=
  h.setClient hpc rfl rfl (h.clients c).socket ((h.clients c).unknown_goto (.inl rfl) happend)

/-- The text of a path is read back. -/
theorem Sendable.parse {p : StorePath} (h : Sendable store p) :
    store.parseStorePath (store.printStorePath p) = .ok p :=
  StoreDir.parseStorePath_print store.toStoreDir h.1.1

theorem Sendable.lineRoot {p : StorePath} (h : Sendable store p) :
    lineRoot store (store.printStorePath p) = some p.hashPart := by
  have hline : (store.printStorePath p).takeWhile (· ≠ 0x0a) = store.printStorePath p := by
    refine List.takeWhile_eq_self_iff.mpr fun b hb => decide_eq_true ?_
    rintro rfl
    exact h.2 hb
  rw [TempRoots.lineRoot, hline, h.parse]

-- ============================================================================
-- `createTempRootsFile`
-- ============================================================================

/-- A process without a file has no roots. -/
theorem FileOk.of_none {x : Client} (hfd : x.fd = none) (hrooted : x.rooted = []) :
    FileOk store s c x := by
  refine ⟨?_, ?_, ?_⟩
  · rw [hfd]
    nofun
  · rw [hrooted]
    nofun
  · rw [hfd]
    nofun

theorem FileOk.rooted_nil {x : Client} (h : FileOk store s c x) (hfd : x.fd = none) :
    x.rooted = [] := by
  cases hrooted : x.rooted with
  | nil => rfl
  | cons p rest =>
      obtain ⟨i, hi, -⟩ := h.rooted p (by rw [hrooted]; exact List.mem_cons_self)
      rw [hfd] at hi
      cases hi

/-- The new state of a client that has no file yet. -/
theorem ClientOk.of_goto {pc : ClientPc} (hclient : s'.clients c = { s.clients c with pc })
    (hok : ClientOk store s c) (hfd : (s.clients c).fd = none) (hrun : s'.run = s.run)
    (hcollector : s'.collector = s.collector) (hpc : PcOk store s' c { s.clients c with pc })
    (happend : ∀ p r, pc ≠ .append p (some r)) : ClientOk store s' c := by
  refine ⟨?_, ?_, ?_, ?_⟩
  · rw [hclient]
    exact hpc
  · rw [hclient]
    exact .of_none hfd (hok.file.rooted_nil hfd)
  · rw [hclient, hrun]
    exact hok.socket
  · rw [hclient, hrun, hcollector]
    exact hok.unknown_goto (.inl rfl) happend

/-- `tryUnlink(fnTempRoots)`. -/
theorem Inv.create (h : Inv store s) {p : StorePath} (hp : Sendable store p)
    (hfd : (s.clients c).fd = none) : Inv store ((s.setName c none).goto c (.openFile p)) := by
  have hself : ((s.setName c none).goto c (.openFile p)).clients c
      = { s.clients c with pc := .openFile p } := Function.update_self _ _ _
  refine h.of_client (c := c) (fun c' hc => ?_) ((h.clients c).of_goto hself hfd rfl rfl ⟨hp, hfd⟩ nofun)
    rfl rfl h.shared ?_ h.locked le_rfl (fun _ hi => hi)
  · exact .of_client (Function.update_of_ne hc _ _) (Function.update_of_ne hc _ _) (fun _ _ => rfl)
      (fun _ _ hm => hm) le_rfl rfl rfl (fun _ hm => hm) id
  · intro c' i hname
    by_cases hc : c' = c
    · rw [hc] at hname
      simp only [State.setName, State.goto, State.setClient, Function.update_self] at hname
      cases hname
    · simp only [State.setName, State.goto, State.setClient, Function.update_of_ne hc] at hname
      exact h.names c' i hname

/-- `openLockFile(fnTempRoots, true)`. -/
theorem Inv.openFile (h : Inv store s) {p : StorePath} (hp : Sendable store p)
    (hfd : (s.clients c).fd = none) :
    Inv store ((openTemp s c).2.goto c (.lockFile p (openTemp s c).1)) := by
  unfold openTemp
  split
  · next i hname =>
      exact h.goto ⟨hp, hfd, h.names c i hname, .inl hname⟩ nofun
  · next hname =>
      have hself : (({ (s.setName c (some s.nextFile)).setFile s.nextFile
          { roots := [], marked := false, lock := none } with
            nextFile := s.nextFile + 1 } : State).goto c (.lockFile p s.nextFile)).clients c
          = { s.clients c with pc := .lockFile p s.nextFile } := Function.update_self _ _ _
      -- no other process knows the new file
      have hnew : ∀ i, (s.files i).lock ≠ none → i ≠ s.nextFile := by
        intro i hi heq
        have hlt := h.locked i hi
        omega
      refine h.of_client (c := c) (fun c' hc => ?_) ((h.clients c).of_goto hself hfd rfl rfl ?_ nofun)
        rfl rfl h.shared ?_ ?_ (Nat.le_succ _) ?_
      · refine .of_client (Function.update_of_ne hc _ _) (Function.update_of_ne hc _ _) ?_ ?_
          (Nat.le_succ _) rfl rfl (fun _ hm => hm) id
        · intro i hi
          exact Function.update_of_ne (hnew i (by rw [hi]; nofun)) _ _
        · intro i hlt hm
          rw [← hm]
          exact congrArg TempFile.marked (Function.update_of_ne (Nat.ne_of_lt hlt) _ _)
      · exact ⟨hp, hfd, Nat.lt_succ_self _, .inl (Function.update_self _ _ _)⟩
      · intro c' i hname'
        by_cases hc : c' = c
        · rw [hc] at hname'
          simp only [State.setName, State.setFile, State.goto, State.setClient,
            Function.update_self] at hname'
          cases hname'
          exact Nat.lt_succ_self _
        · simp only [State.setName, State.setFile, State.goto, State.setClient,
            Function.update_of_ne hc] at hname'
          exact Nat.lt_succ_of_lt (h.names c' i hname')
      · intro i hi
        by_cases heq : i = s.nextFile
        · rw [heq]
          exact Nat.lt_succ_self _
        · simp only [State.setName, State.setFile, State.goto, State.setClient,
            Function.update_of_ne heq] at hi
          exact Nat.lt_succ_of_lt (h.locked i hi)
      · intro i hi
        have hne := hnew i (by rw [hi]; nofun)
        simp only [State.setName, State.setFile, State.goto, State.setClient,
          Function.update_of_ne hne]
        exact hi

/-- A client changes a file that is not locked by anyone else. -/
theorem Inv.setFile (h : Inv store s) {i : Nat} {f : TempFile} {x : Client}
    (hi : i < s.nextFile) (hlock : (s.files i).lock = none ∨ (s.files i).lock = some (.client c))
    (hmarked : (s.files i).marked = true → f.marked = true)
    (hmine : ClientOk store ((s.setFile i f).setClient c x) c) :
    Inv store ((s.setFile i f).setClient c x) := by
  have hne : ∀ j y, (s.files j).lock = some y → y ≠ .client c → j ≠ i := by
    rintro j y hj hy rfl
    rcases hlock with hnone | hclient
    · rw [hj] at hnone
      cases hnone
    · rw [hj] at hclient
      exact hy (Option.some.inj hclient)
  refine h.of_client (c := c) (fun c' hc => ?_) hmine rfl rfl h.shared h.names ?_ le_rfl ?_
  · refine .of_client (Function.update_of_ne hc _ _) rfl ?_ ?_ le_rfl rfl rfl (fun _ hm => hm) id
    · intro j hj
      refine Function.update_of_ne (hne j _ hj ?_) _ _
      intro heq
      exact hc (Holder.client.inj heq)
    · intro j _ hm
      by_cases heq : j = i
      · rw [heq] at hm ⊢
        simp only [State.setFile, State.setClient, Function.update_self]
        exact hmarked hm
      · simp only [State.setFile, State.setClient, Function.update_of_ne heq]
        exact hm
  · intro j hj
    by_cases heq : j = i
    · rw [heq]
      exact hi
    · simp only [State.setFile, State.setClient, Function.update_of_ne heq] at hj
      exact h.locked j hj
  · intro j hj
    have hj' := hne j _ hj nofun
    simp only [State.setFile, State.setClient, Function.update_of_ne hj']
    exact hj

/-- `lockFile(fdTempRoots->get(), ltWrite, true)`. -/
theorem Inv.lockFile (h : Inv store s) {p : StorePath} {i : Nat} (hp : Sendable store p)
    (hfd : (s.clients c).fd = none) (hi : Candidate s c i) (hlock : (s.files i).lock = none) :
    Inv store ((s.setFile i { s.files i with lock := some (.client c) }).goto c (.fstat p i)) := by
  have hself : ((s.setFile i { s.files i with lock := some (.client c) }).goto c
      (.fstat p i)).clients c = { s.clients c with pc := .fstat p i } := Function.update_self _ _ _
  have hfile : ((s.setFile i { s.files i with lock := some (.client c) }).goto c
      (.fstat p i)).files i = { s.files i with lock := some (.client c) } :=
    Function.update_self _ _ _
  refine h.setFile hi.1 (.inl hlock) id ?_
  refine (h.clients c).of_goto hself hfd rfl rfl
    ⟨hp, hfd, ⟨hi.1, ?_⟩, congrArg TempFile.lock hfile⟩ nofun
  refine hi.2.imp id (Or.imp (fun hm => ?_) id)
  exact (congrArg TempFile.marked hfile).trans hm

/-- A file that a collector has marked is given up. -/
theorem Inv.giveUp (h : Inv store s) {p : StorePath} {i : Nat} (hp : Sendable store p)
    (hfd : (s.clients c).fd = none) (hi : i < s.nextFile)
    (hlock : (s.files i).lock = some (.client c)) :
    Inv store ((s.setFile i { s.files i with lock := none }).goto c (.create p)) := by
  have hself : ((s.setFile i { s.files i with lock := none }).goto c (.create p)).clients c
      = { s.clients c with pc := .create p } := Function.update_self _ _ _
  refine h.setFile hi (.inr hlock) id ?_
  exact (h.clients c).of_goto hself hfd rfl rfl ⟨hp, hfd⟩ nofun

/-- An empty file becomes the file of the process. -/
theorem Inv.created (h : Inv store s) {p : StorePath} {i : Nat} (hp : Sendable store p)
    (hfd : (s.clients c).fd = none) (hi : Candidate s c i)
    (hlock : (s.files i).lock = some (.client c)) (hmarked : ¬ (s.files i).marked = true)
    (hroots : (s.files i).roots = []) :
    Inv store (s.setClient c { s.clients c with fd := some i, pc := .tryLock p }) := by
  have hself : (s.setClient c { s.clients c with fd := some i, pc := .tryLock p }).clients c
      = { s.clients c with fd := some i, pc := .tryLock p } := Function.update_self _ _ _
  have hname : s.names c = some i := by
    rcases hi.2 with hname | hm | ⟨rest, hpc⟩
    · exact hname
    · exact absurd hm hmarked
    · rw [h.unlinked i rest hpc] at hlock
      cases hlock
  refine h.of_client (c := c) (fun c' hc => ?_) ⟨?_, ⟨?_, ?_, ?_⟩, ?_, ?_⟩ rfl rfl h.shared h.names
    h.locked le_rfl (fun _ hj => hj)
  · exact .of_client (Function.update_of_ne hc _ _) rfl (fun _ _ => rfl) (fun _ _ hm => hm) le_rfl
      rfl rfl (fun _ hm => hm) id
  · rw [hself]
    exact hp
  · rw [hself]
    intro j hj
    cases hj
    exact ⟨hlock, hname, hi.1⟩
  · rw [hself]
    show ∀ q ∈ (s.clients c).rooted, _
    rw [(h.clients c).file.rooted_nil hfd]
    nofun
  · rw [hself]
    intro j t hj ht
    cases hj
    change t ∈ (s.files i).roots at ht
    rw [hroots] at ht
    cases ht
  · rw [hself]
    exact (h.clients c).socket
  · rw [hself]
    exact (h.clients c).unknown_goto (.inl rfl) nofun

-- ============================================================================
-- `addTempRoot`
-- ============================================================================

/-- Who has a shared lock, when a client takes or drops its own. -/
theorem Inv.setShared (h : Inv store s) {shared : Finset Pid} {x : Client}
    (hidle : ∀ c' ∈ shared, s.collector = .idle) (hkeep : ∀ c', c' ≠ c → c' ∈ s.shared → c' ∈ shared)
    (hmine : ClientOk store ({ s with shared }.setClient c x) c) :
    Inv store ({ s with shared }.setClient c x) := by
  refine h.of_client (c := c) (fun c' hc => ?_) hmine rfl rfl hidle h.names h.locked le_rfl
    (fun _ hi => hi)
  exact .of_client (Function.update_of_ne hc _ _) rfl (fun _ _ => rfl) (fun _ _ hm => hm) le_rfl
    rfl rfl (fun _ hm => hm) (hkeep c' hc)

/-- The file of a client stays as it is when only the shared locks change. -/
theorem FileOk.setShared (h : FileOk store s c (s.clients c)) {shared : Finset Pid} {x : Client}
    (hfd : x.fd = (s.clients c).fd)
    (hrooted : ∀ p ∈ x.rooted, ∃ i, x.fd = some i ∧ store.printStorePath p ∈ (s.files i).roots) :
    FileOk store ({ s with shared }.setClient c x) c x := by
  refine ⟨?_, hrooted, ?_⟩
  · rw [hfd]
    exact h.held
  · intro i t hi ht
    rw [hfd] at hi
    obtain ⟨p, hp, heq, hread, hne⟩ := h.covered i t hi ht
    refine ⟨p, hp, heq, hread.imp (fun hu => ?_) id, hne⟩
    unfold Unread at hu ⊢
    simp only [State.setClient, Function.update_self, hfd]
    exact hu

/-- The shared lock is free. -/
theorem Inv.share (h : Inv store s) {p : StorePath} (hp : Sendable store p) (hidle : s.collector = .idle) :
    Inv store ({ s with shared := insert c s.shared }.goto c (.append p none)) := by
  have hself : ({ s with shared := insert c s.shared }.setClient c
      { s.clients c with pc := .append p none }).clients c
      = { s.clients c with pc := .append p none } := Function.update_self _ _ _
  show Inv store ({ s with shared := insert c s.shared }.setClient c
    { s.clients c with pc := .append p none })
  refine h.setShared (fun _ _ => hidle) (fun _ _ hmem => Finset.mem_insert_of_mem hmem)
    ⟨?_, ?_, ?_, ?_⟩
  · rw [hself]
    exact ⟨hp, Finset.mem_insert_self c s.shared⟩
  · rw [hself]
    exact (h.clients c).file.setShared rfl (h.clients c).file.rooted
  · rw [hself]
    exact (h.clients c).socket
  · rw [hself]
    exact (h.clients c).unknown_goto (.inl rfl) nofun

/-- `addTempRoot` returns. -/
theorem Inv.release (h : Inv store s) {p : StorePath}
    (hroot : ∃ i, (s.clients c).fd = some i ∧ store.printStorePath p ∈ (s.files i).roots) :
    Inv store ({ s with shared := s.shared.erase c }.setClient c
      { s.clients c with pc := .idle, rooted := p :: (s.clients c).rooted }) := by
  have hself : ({ s with shared := s.shared.erase c }.setClient c
      { s.clients c with pc := .idle, rooted := p :: (s.clients c).rooted }).clients c
      = { s.clients c with pc := .idle, rooted := p :: (s.clients c).rooted } :=
    Function.update_self _ _ _
  refine h.setShared (fun c' hmem => h.shared c' (Finset.mem_of_mem_erase hmem))
    (fun c' hc hmem => Finset.mem_erase.mpr ⟨hc, hmem⟩) ⟨?_, ?_, ?_, ?_⟩
  · rw [hself]
    trivial
  · rw [hself]
    refine (h.clients c).file.setShared rfl fun q hq => ?_
    rcases List.mem_cons.mp hq with rfl | hq
    · exact hroot
    · exact (h.clients c).file.rooted q hq
  · rw [hself]
    exact (h.clients c).socket
  · rw [hself]
    exact (h.clients c).unknown_goto (.inl rfl) nofun

/-- The root is appended to the file. -/
theorem Inv.append (h : Inv store s) {p : StorePath} {i : Nat} (hp : Sendable store p)
    (hi : (s.clients c).fd = some i) (hread : Unread s c ∨ p.hashPart ∈ s.tempRoots)
    (hne : ∀ hash, s.collector = .deleting hash → p.hashPart ≠ hash) :
    Inv store ((s.setFile i { s.files i with
      roots := (s.files i).roots ++ [store.printStorePath p] }).goto c (.release p)) := by
  obtain ⟨hheld, hrooted, hcovered⟩ := (h.clients c).file
  obtain ⟨hlock, hname, hlt⟩ := hheld i hi
  obtain ⟨f, hf⟩ : ∃ f : TempFile, f = { s.files i with
    roots := (s.files i).roots ++ [store.printStorePath p] } := ⟨_, rfl⟩
  rw [← hf]
  show Inv store ((s.setFile i f).setClient c { s.clients c with pc := .release p })
  have hself : ((s.setFile i f).setClient c { s.clients c with pc := .release p }).clients c
      = { s.clients c with pc := .release p } := Function.update_self _ _ _
  have hfile : ((s.setFile i f).setClient c { s.clients c with pc := .release p }).files i = f :=
    Function.update_self _ _ _
  have hroots : f.roots = (s.files i).roots ++ [store.printStorePath p] := by rw [hf]
  have hunread : Unread s c →
      Unread ((s.setFile i f).setClient c { s.clients c with pc := .release p }) c := by
    intro hu
    unfold Unread at hu ⊢
    rw [hself]
    exact hu
  refine h.setFile hlt (.inr hlock) (fun hm => by rw [hf]; exact hm)
    ⟨?_, ⟨?_, ?_, ?_⟩, ?_, ?_⟩
  · rw [hself]
    refine ⟨hp, i, hi, ?_⟩
    rw [hfile, hroots]
    exact List.mem_append_right _ (List.mem_singleton.mpr rfl)
  · rw [hself]
    intro j hj
    cases hi.symm.trans hj
    rw [hfile]
    exact ⟨by rw [hf]; exact hlock, hname, hlt⟩
  · rw [hself]
    intro q hq
    obtain ⟨j, hj, hmem⟩ := hrooted q hq
    cases hi.symm.trans hj
    refine ⟨i, hi, ?_⟩
    rw [hfile, hroots]
    exact List.mem_append_left _ hmem
  · rw [hself]
    intro j t hj ht
    cases hi.symm.trans hj
    rw [hfile, hroots] at ht
    rcases List.mem_append.mp ht with ht | ht
    · obtain ⟨q, hq, heq, hread', hne'⟩ := hcovered i t hi ht
      exact ⟨q, hq, heq, hread'.imp hunread id, hne'⟩
    · exact ⟨p, hp, List.mem_singleton.mp ht, hread.imp hunread id, hne⟩
  · rw [hself]
    exact (h.clients c).socket
  · rw [hself]
    exact (h.clients c).unknown_goto (.inl rfl) nofun

/-- A root that a client has an answer for is appended while the run that has
    answered is still the last one, or before the current run reads the file. -/
def InTime (s : State) (c : Pid) : Prop :=
  ∀ p r, (s.clients c).pc = .append p (some r) → r = s.run ∨ Unread s c

/-- The next call of `addTempRoot`. -/
theorem Inv.clientStep (h : Inv store s) (hok : InTime s c)
    (hstep : clientStep store s c = some s') : Inv store s' := by
  by_cases halive : (s.clients c).alive = false
  · rw [TempRoots.clientStep, if_pos halive] at hstep
    cases hstep
  rw [TempRoots.clientStep, if_neg halive] at hstep
  have hpc := (h.clients c).pc
  have hsocket := (h.clients c).socket
  have hnone : ∀ r, (none : Option Nat) = some r → r ≤ s.run := nofun
  unfold PcOk at hpc
  cases hat : (s.clients c).pc with
  | idle =>
      rw [hat] at hstep
      cases hstep
  | create p =>
      rw [hat] at hstep hpc
      cases hstep
      exact h.create hpc.1 hpc.2
  | openFile p =>
      rw [hat] at hstep hpc
      cases hstep
      exact h.openFile hpc.1 hpc.2
  | lockFile p i =>
      rw [hat] at hstep hpc
      simp only at hstep
      split at hstep
      · next hlock =>
          cases hstep
          exact h.lockFile hpc.1 hpc.2.1 hpc.2.2 hlock
      · cases hstep
  | fstat p i =>
      rw [hat] at hstep hpc
      obtain ⟨hp, hfd, hi, hlock⟩ := hpc
      simp only at hstep
      split at hstep
      · cases hstep
        exact h.giveUp hp hfd hi.1 hlock
      · next hempty =>
          cases hstep
          rw [not_or, not_not] at hempty
          exact h.created hp hfd hi hlock hempty.1 hempty.2
  | tryLock p =>
      rw [hat] at hstep hpc
      simp only at hstep
      split at hstep
      · next hidle =>
          cases hstep
          exact h.share hpc hidle
      · cases hstep
        split
        · exact h.goto hpc nofun
        · next hconnected => exact h.goto ⟨hpc, hconnected⟩ nofun
  | connect p =>
      rw [hat] at hstep hpc
      simp only at hstep
      split at hstep
      · next hup =>
          cases hstep
          refine h.setClient ⟨hpc, nofun⟩ rfl rfl ?_ fun hlocked => ?_
          · rintro r ⟨⟩
            exact le_rfl
          · rw [hlocked] at hup
            cases hup
      · cases hstep
        exact h.goto hpc nofun
  | send p =>
      rw [hat] at hstep hpc
      simp only at hstep
      split at hstep
      · cases hstep
        exact h.goto hpc nofun
      · cases hstep
        exact h.setClient hpc.1 rfl rfl hnone ((h.clients c).unknown_goto (.inr rfl) nofun)
  | sent p =>
      rw [hat] at hstep hpc
      simp only at hstep
      split at hstep
      · cases hstep
      · cases hstep
        exact h.setClient hpc.1 rfl rfl hnone ((h.clients c).unknown_goto (.inr rfl) nofun)
  | received p =>
      rw [hat] at hstep hpc
      simp only at hstep
      split at hstep
      · cases hstep
      · cases hstep
        exact h.setClient hpc.1 rfl rfl hnone ((h.clients c).unknown_goto (.inr rfl) nofun)
  | acked p =>
      rw [hat] at hstep hpc
      cases hstep
      obtain ⟨hp, hconnected, hheard⟩ := hpc
      cases hr : (s.clients c).socket with
      | none => exact absurd hr hconnected
      | some r =>
          refine h.setClient ⟨hp, hsocket r hr, fun heq => hheard (heq ▸ hr)⟩ rfl rfl hsocket ?_
          rintro hlocked (hr' | ⟨q, hat'⟩)
          · exact (h.clients c).unknown hlocked (.inl hr')
          · cases hat'
            exact (h.clients c).unknown hlocked (.inl hr)
  | append p via =>
      rw [hat] at hstep
      simp only at hstep
      split at hstep
      · cases hstep
      next i hi =>
      cases hstep
      -- where no server is up nothing is being deleted, and the next run will
      -- read the file
      have hdown : s.collector.serverUp = false →
          Unread s c ∧ ∀ hash, s.collector = .deleting hash → p.hashPart ≠ hash := by
        intro hdown
        unfold Unread
        cases hcollector : s.collector <;> rw [hcollector] at hdown <;> first
          | exact ⟨trivial, nofun⟩
          | cases hdown
      cases via with
      | none =>
          rw [hat] at hpc
          obtain ⟨hread, hne⟩ := hdown (by rw [h.shared c hpc.2]; rfl)
          exact h.append hpc.1 hi (.inl hread) hne
      | some r =>
          rw [hat] at hpc
          obtain ⟨hp, -, hheard⟩ := hpc
          cases hup : s.collector.serverUp with
          | false =>
              obtain ⟨hread, hne⟩ := hdown hup
              exact h.append hp hi (.inl hread) hne
          | true =>
              rcases hok p r hat with heq | hread
              · obtain ⟨hmem, hne⟩ := hheard heq hup
                exact h.append hp hi (.inr hmem) hne
              · refine h.append hp hi (.inl hread) fun hash hdeleting => ?_
                rw [Unread, hdeleting] at hread
                exact hread.elim
  | release p =>
      rw [hat] at hstep hpc
      cases hstep
      exact h.release hpc.2

/-- The call of `addTempRoot`. -/
theorem Inv.begin (h : Inv store s) {p : StorePath} (hp : Sendable store p)
    (hstep : beginStep s c p = some s') : Inv store s' := by
  unfold beginStep at hstep
  simp only at hstep
  split at hstep
  · cases hstep
    split
    · next hfd => exact h.goto ⟨hp, hfd⟩ nofun
    · exact h.goto hp nofun
  · cases hstep

/-- The end of a process. -/
theorem Inv.die (h : Inv store s) (c : Pid) : Inv store (dieStep s c) := by
  have hself : (dieStep s c).clients c = { Client.new with alive := false } :=
    Function.update_self _ _ _
  have hkeep : ∀ i y, (s.files i).lock = some y → y ≠ .client c → (dieStep s c).files i = s.files i := by
    intro i y hi hy
    refine if_neg ?_
    rw [hi]
    exact fun heq => hy (Option.some.inj heq)
  have hlock : ∀ i, ((dieStep s c).files i).lock ≠ none → (s.files i).lock ≠ none := by
    intro i hi hnone
    refine hi ?_
    show (if (s.files i).lock = some (.client c) then _ else _ : TempFile).lock = none
    rw [if_neg (by rw [hnone]; nofun)]
    exact hnone
  refine h.of_client (c := c) (fun c' hc => ?_) ⟨?_, ?_, ?_, ?_⟩ rfl rfl
    (fun c' hmem => h.shared c' (Finset.mem_of_mem_erase hmem)) h.names
    (fun i hi => h.locked i (hlock i hi)) le_rfl ?_
  · refine .of_client (Function.update_of_ne hc _ _) rfl (fun i hi => ?_) (fun i _ hm => ?_) le_rfl
      rfl rfl (fun _ hm => hm) (fun hmem => Finset.mem_erase.mpr ⟨hc, hmem⟩)
    · exact hkeep i _ hi fun heq => hc (Holder.client.inj heq)
    · show (if (s.files i).lock = some (.client c) then _ else _ : TempFile).marked = true
      split
      · exact hm
      · exact hm
  · rw [hself]
    trivial
  · rw [hself]
    exact .of_none rfl rfl
  · rw [hself]
    nofun
  · rw [hself]
    rintro - (hr | ⟨p, hat⟩)
    · cases hr
    · cases hat
  · intro i hi
    rw [hkeep i _ hi nofun]
    exact hi

/-- A new process. -/
theorem Inv.start (h : Inv store s) (c : Pid) : Inv store (s.setClient c Client.new) := by
  have hself : (s.setClient c Client.new).clients c = Client.new := Function.update_self _ _ _
  refine h.of_client (c := c) (fun c' hc => ?_) ⟨?_, ?_, ?_, ?_⟩ rfl rfl h.shared h.names h.locked
    le_rfl (fun _ hi => hi)
  · exact .of_client (Function.update_of_ne hc _ _) rfl (fun _ _ => rfl) (fun _ _ hm => hm) le_rfl
      rfl rfl (fun _ hm => hm) id
  · rw [hself]
    trivial
  · rw [hself]
    exact .of_none rfl rfl
  · rw [hself]
    nofun
  · rw [hself]
    rintro - (hr | ⟨p, hat⟩)
    · cases hr
    · cases hat

-- ============================================================================
-- Steps of the collector
-- ============================================================================

/-- The server reads a root. -/
theorem Inv.receive (h : Inv store s) (hstep : receiveStep store s c = some s') : Inv store s' := by
  unfold receiveStep at hstep
  split at hstep
  · next p hat =>
      have hpc := (h.clients c).pc
      unfold PcOk at hpc
      rw [hat] at hpc
      split at hstep
      · next hup =>
          cases hstep
          rw [hpc.1.lineRoot]
          -- first the root, then the state of the client
          have hinsert : Inv store { s with tempRoots := insert p.hashPart s.tempRoots } := by
            refine ⟨fun c' => (h.clients c').around ?_, h.shared, h.names, h.locked, h.opened, h.stale,
              h.unlinked, h.pending⟩
            exact .of_client rfl rfl (fun _ _ => rfl) (fun _ _ hm => hm) le_rfl rfl rfl
              (Finset.subset_insert _ _) id
          exact hinsert.goto ⟨hpc.1, hpc.2, fun _ _ => Finset.mem_insert_self _ _⟩ nofun
      · cases hstep
  · cases hstep

/-- The server answers. -/
theorem Inv.ack (h : Inv store s) (hstep : ackStep store s c = some s') : Inv store s' := by
  unfold ackStep at hstep
  split at hstep
  · next p hat =>
      have hpc := (h.clients c).pc
      unfold PcOk at hpc
      rw [hat] at hpc
      obtain ⟨hp, hconnected, hmem⟩ := hpc
      simp only [hp.lineRoot] at hstep
      split at hstep
      · next hmay =>
          obtain ⟨hup, hsocket, hpending⟩ := hmay
          cases hstep
          refine h.goto ⟨hp, hconnected, fun _ _ => ⟨hmem hsocket hup, ?_⟩⟩ nofun
          rintro hash hdeleting rfl
          rcases hpending with hnone | hne
          · cases hnone
          · exact hne (h.pending _ hdeleting)
      · cases hstep
  · cases hstep

/-- The collector moves on in its run. -/
theorem Inv.collector (h : Inv store s) (haround : ∀ c, Around store s s' c)
    (hshared : ∀ c ∈ s'.shared, s'.collector = .idle)
    (hnames : ∀ c i, s'.names c = some i → i < s'.nextFile)
    (hlocked : ∀ i, (s'.files i).lock ≠ none → i < s'.nextFile)
    (hopened : ∀ c i rest, s'.collector = .opened c i rest → i < s'.nextFile)
    (hstale : ∀ c i rest, s'.collector = .stale c i rest → (s'.files i).lock = some .collector)
    (hunlinked : ∀ i rest, s'.collector = .unlinked i rest → (s'.files i).lock = some .collector)
    (hpending : ∀ h, s'.collector = .deleting h → s'.pending = some h) : Inv store s' :=
  ⟨fun c => (h.clients c).around (haround c), hshared, hnames, hlocked, hopened, hstale, hunlinked,
    hpending⟩

/-- A step of the collector that changes no file. -/
theorem Inv.advance (h : Inv store s) {pc : CollectorPc} {roots : Finset Bytes}
    {pending : Option Bytes} (hroots : s.tempRoots ⊆ roots) (hbusy : s.collector ≠ .idle)
    (hmark : ∀ i rest, s.collector ≠ .unlinked i rest)
    (hup : pc.serverUp = true → s.collector.serverUp = true ∨ s.collector = .locked)
    (hpc : pc ≠ .locked ∧ (∀ c i rest, pc ≠ .stale c i rest) ∧ ∀ i rest, pc ≠ .unlinked i rest)
    (hopened : ∀ c i rest, pc = .opened c i rest → i < s.nextFile)
    (hdeleting : ∀ hash, pc = .deleting hash → hash ∉ roots ∧ pending = some hash)
    (hread : ∀ c i p, (s.clients c).fd = some i → store.printStorePath p ∈ (s.files i).roots →
      Sendable store p → Unread s c →
      Unread { s with collector := pc, tempRoots := roots, pending } c ∨ p.hashPart ∈ roots) :
    Inv store { s with collector := pc, tempRoots := roots, pending } := by
  refine h.collector (fun c => ?_) ?_ h.names h.locked hopened ?_ ?_ ?_
  · -- a process that knows the run has seen its server
    have hserver : (s.clients c).Knows s.run → pc.serverUp = true →
        s.collector.serverUp = true := by
      intro hknows hup'
      rcases hup hup' with hserver | hlocked
      · exact hserver
      · exact absurd hknows ((h.clients c).unknown hlocked)
    have hne : ∀ p : StorePath, p.hashPart ∈ roots → ∀ hash, pc = .deleting hash →
        p.hashPart ≠ hash := by
      rintro p hmem hash heq rfl
      exact (hdeleting _ heq).1 hmem
    exact {
      client := rfl
      name := fun _ _ => rfl
      files := fun _ _ => rfl
      nextFile := le_rfl
      -- a file that may stand under a name stays one
      candidate := by
        rintro i ⟨hlt, hname | hm | ⟨rest, heq⟩⟩
        · exact ⟨hlt, .inl hname⟩
        · exact ⟨hlt, .inr (.inl hm)⟩
        · exact absurd heq (hmark i rest)
      run := le_rfl
      received := fun hknows _ hup' => ⟨hserver hknows hup', hroots⟩
      -- a root that the run was told of is among its roots, so it deletes another path
      heard := by
        intro hknows _ p hp hup'
        obtain ⟨hmem, -⟩ := hp (hserver hknows hup')
        exact ⟨hroots hmem, hne p (hroots hmem)⟩
      unknown := fun hlocked => absurd hlocked hpc.1
      shared := id
      -- a root in a file is read later, or known
      covered := by
        intro i p hi hmem hp hcovered _
        have hread' : Unread { s with collector := pc, tempRoots := roots, pending } c ∨
            p.hashPart ∈ roots := by
          rcases hcovered with hunread | hknown
          · exact hread c i p hi hmem hp hunread
          · exact .inr (hroots hknown)
        refine ⟨hread', fun hash heq => ?_⟩
        rcases hread' with hunread | hknown
        · simp only [Unread, show pc = .deleting hash from heq] at hunread
        · exact hne p hknown hash heq }
  · intro c hmem
    exact absurd (h.shared c hmem) hbusy
  · intro c i rest heq
    exact absurd heq (hpc.2.1 c i rest)
  · intro i rest heq
    exact absurd heq (hpc.2.2 i rest)
  · intro hash heq
    exact (hdeleting hash heq).2

/-- A run begins: everything the last one knew is gone, and all files are still
    to be read. -/
theorem Inv.lock (h : Inv store s) (hidle : s.collector = .idle) (hshared : s.shared = ∅) :
    Inv store { s with run := s.run + 1, collector := .locked, tempRoots := ∅, pending := none } := by
  refine h.collector (fun c => ?_) ?_ h.names h.locked nofun nofun nofun nofun
  · have hnew : ∀ {P : Prop}, s.run + 1 = s.run → P := fun heq => by omega
    exact {
      client := rfl
      name := fun _ _ => rfl
      files := fun _ _ => rfl
      nextFile := le_rfl
      candidate := by
        rintro i ⟨hlt, hname | hm | ⟨rest, heq⟩⟩
        · exact ⟨hlt, .inl hname⟩
        · exact ⟨hlt, .inr (.inl hm)⟩
        · cases hidle.symm.trans heq
      run := Nat.le_succ _
      received := fun _ heq => hnew heq
      heard := fun _ heq => hnew heq
      unknown := fun _ => .inr (Nat.lt_succ_self _)
      shared := id
      covered := fun _ _ _ _ _ _ _ => ⟨.inl trivial, nofun⟩ }
  · show ∀ c ∈ s.shared, _
    rw [hshared]
    nofun

-- ============================================================================
-- `findTempRoots`
-- ============================================================================

/-- The hash part of each root in a file. -/
theorem readRoots_mem {ts : List Bytes} {roots : Finset Bytes} (h : readRoots store ts = .ok roots)
    {p : StorePath} (hp : Sendable store p) (hmem : store.printStorePath p ∈ ts) :
    p.hashPart ∈ roots := by
  induction ts generalizing roots with
  | nil => cases hmem
  | cons t ts ih =>
      simp only [readRoots, bind, Except.bind] at h
      split at h
      · cases h
      next path hpath =>
      split at h
      · cases h
      next rest hrest =>
      cases h
      rcases List.mem_cons.mp hmem with rfl | hmem
      · rw [hp.parse] at hpath
        cases hpath
        exact Finset.mem_insert_self _ _
      · exact Finset.mem_insert_of_mem (ih hrest hmem)

/-- The file of a process that is alive is not stale. -/
theorem Inv.fd_ne (h : Inv store s) {i j : Nat} (hi : (s.clients c).fd = some i)
    (hj : (s.files j).lock ≠ some (.client c)) : i ≠ j := by
  rintro rfl
  exact hj ((h.clients c).file.held i hi).1

/-- A step of the collector on a stale file. -/
theorem Inv.mark (h : Inv store s) {i : Nat} {f : TempFile} {pc : CollectorPc}
    (hi : i < s.nextFile) (hlock : ∀ c, (s.files i).lock ≠ some (.client c))
    (hmarked : (s.files i).marked = true → f.marked = true)
    (hcandidate : ∀ j rest, s.collector = .unlinked j rest → j = i ∧ f.marked = true)
    (hup : s.collector.serverUp = true)
    (hpc : pc ≠ .locked ∧ pc ≠ .idle ∧ ∀ hash, pc ≠ .deleting hash)
    (hopened : ∀ c j rest, pc ≠ .opened c j rest)
    (hstale : ∀ c j rest, pc = .stale c j rest → j = i ∧ f.lock = some .collector)
    (hunlinked : ∀ j rest, pc ≠ .unlinked j rest)
    (hread : ∀ c j, (s.clients c).fd = some j → Unread s c →
      Unread { s.setFile i f with collector := pc } c) :
    Inv store { s.setFile i f with collector := pc } := by
  -- no client holds the lock of the file, so it is not theirs
  have hfile : ∀ c j, (s.files j).lock = some (.client c) → (s.setFile i f).files j = s.files j := by
    rintro c j hj
    refine Function.update_of_ne ?_ _ _
    rintro rfl
    exact hlock c hj
  refine h.collector (fun c => ?_) ?_ h.names ?_ ?_ ?_ ?_ ?_
  · exact {
      client := rfl
      name := fun _ _ => rfl
      files := hfile c
      nextFile := le_rfl
      -- a file of a name is still there, or has been marked
      candidate := by
        rintro j ⟨hlt, hname | hm | ⟨rest, heq⟩⟩
        · exact ⟨hlt, .inl hname⟩
        · refine ⟨hlt, .inr (.inl ?_)⟩
          by_cases hj : j = i
          · rw [hj] at hm ⊢
            simp only [State.setFile, Function.update_self]
            exact hmarked hm
          · simp only [State.setFile, Function.update_of_ne hj]
            exact hm
        · obtain ⟨rfl, hf⟩ := hcandidate j rest heq
          refine ⟨hlt, .inr (.inl ?_)⟩
          simp only [State.setFile, Function.update_self]
          exact hf
      run := le_rfl
      received := fun _ _ _ => ⟨hup, fun _ hm => hm⟩
      heard := by
        intro _ _ p hp _
        exact ⟨(hp hup).1, fun hash heq => absurd heq (hpc.2.2 hash)⟩
      unknown := fun hlocked => absurd hlocked hpc.1
      shared := id
      covered := by
        intro j p hj _ _ hcovered _
        exact ⟨hcovered.imp (hread c j hj) id, fun hash heq => absurd heq (hpc.2.2 hash)⟩ }
  · intro c hmem
    have hidle := h.shared c hmem
    rw [hidle] at hup
    cases hup
  · intro j hj
    by_cases heq : j = i
    · rw [heq]
      exact hi
    · simp only [State.setFile, Function.update_of_ne heq] at hj
      exact h.locked j hj
  · intro c j rest heq
    exact absurd heq (hopened c j rest)
  · intro c j rest heq
    obtain ⟨rfl, hf⟩ := hstale c j rest heq
    simp only [State.setFile, Function.update_self]
    exact hf
  · intro j rest heq
    exact absurd heq (hunlinked j rest)
  · intro hash heq
    exact absurd heq (hpc.2.2 hash)

/-- The collector unlinks a stale file. -/
theorem Inv.unlink (h : Inv store s) {i : Nat} {rest : List Pid}
    (hstale : s.collector = .stale c i rest) (hname : ∀ j, s.names c = some j → j = i) :
    Inv store { s.setName c none with collector := .unlinked i rest } := by
  have hlock := h.stale c i rest hstale
  have hup : s.collector.serverUp = true := by rw [hstale]; rfl
  -- the name of a file that a living process has is not touched
  have hother : ∀ c' j, (s.clients c').fd = some j → c' ≠ c := by
    rintro c' j hj rfl
    obtain ⟨hheld, hnamed, -⟩ := (h.clients c').file.held j hj
    rw [hname j hnamed, hlock] at hheld
    cases hheld
  refine h.collector (fun c' => ?_) ?_ ?_ h.locked nofun nofun ?_ nofun
  · exact {
      client := rfl
      name := fun j hj => Function.update_of_ne (hother c' j hj) _ _
      files := fun _ _ => rfl
      nextFile := le_rfl
      candidate := by
        rintro j ⟨hlt, hnamed | hm | ⟨rest', heq⟩⟩
        · by_cases hc : c' = c
          · rw [hc] at hnamed
            rw [hname j hnamed]
            exact ⟨hname j hnamed ▸ hlt, .inr (.inr ⟨rest, rfl⟩)⟩
          · exact ⟨hlt, .inl ((Function.update_of_ne hc _ _).trans hnamed)⟩
        · exact ⟨hlt, .inr (.inl hm)⟩
        · cases hstale.symm.trans heq
      run := le_rfl
      received := fun _ _ _ => ⟨hup, fun _ hm => hm⟩
      heard := by
        intro _ _ p hp _
        exact ⟨(hp hup).1, nofun⟩
      unknown := nofun
      shared := id
      covered := by
        intro j p _ _ _ hcovered _
        refine ⟨hcovered.imp (fun hunread => ?_) id, nofun⟩
        rw [Unread, hstale] at hunread
        exact hunread }
  · intro c' hmem
    have hidle := h.shared c' hmem
    rw [hidle] at hup
    cases hup
  · intro c' j hj
    by_cases hc : c' = c
    · rw [hc] at hj
      simp only [State.setName, Function.update_self] at hj
      cases hj
    · simp only [State.setName, Function.update_of_ne hc] at hj
      exact h.names c' j hj
  · intro j rest' heq
    cases heq
    exact hlock

/-- The next call of `findTempRoots`. -/
theorem Inv.read (h : Inv store s)
    (hunlink : ∀ c i rest, s.collector = .stale c i rest → ∀ j, s.names c = some j → j = i)
    (hstep : readStep store s = some s') : Inv store s' := by
  cases hat : s.collector with
  | reading rest =>
      cases rest with
      | nil =>
          rw [readStep, hat] at hstep
          cases hstep
          refine h.advance (fun _ hm => hm) (by rw [hat]; nofun) (by rw [hat]; nofun)
            (fun _ => .inl (by rw [hat]; rfl)) ⟨nofun, nofun, nofun⟩ nofun nofun ?_
          intro c i p _ _ _ hunread
          rw [Unread, hat] at hunread
          cases hunread
      | cons c₀ rest =>
          simp only [readStep, hat] at hstep
          -- a file that has a name is opened
          split at hstep
          · next hnone =>
              cases hstep
              refine h.advance (fun _ hm => hm) (by rw [hat]; nofun) (by rw [hat]; nofun)
                (fun _ => .inl (by rw [hat]; rfl)) ⟨nofun, nofun, nofun⟩ nofun nofun ?_
              intro c i p hi _ _ hunread
              rw [Unread, hat] at hunread
              rcases List.mem_cons.mp hunread with rfl | hmem
              · cases hnone.symm.trans ((h.clients c).file.held i hi).2.1
              · exact .inl hmem
          · next i₀ hname =>
              cases hstep
              refine h.advance (fun _ hm => hm) (by rw [hat]; nofun) (by rw [hat]; nofun)
                (fun _ => .inl (by rw [hat]; rfl)) ⟨nofun, nofun, nofun⟩ ?_ nofun ?_
              · intro c i rest' heq
                cases heq
                exact h.names _ _ hname
              · intro c i p hi _ _ hunread
                rw [Unread, hat] at hunread
                rcases List.mem_cons.mp hunread with rfl | hmem
                · cases hname.symm.trans ((h.clients c).file.held i hi).2.1
                  exact .inl (.inr ⟨rfl, hi⟩)
                · exact .inl (.inl hmem)
  | opened c₀ i₀ rest =>
      simp only [readStep, hat] at hstep
      split at hstep
      · next hfree =>
          cases hstep
          refine h.mark (h.opened c₀ i₀ rest hat) (by rw [hfree]; nofun) id (by rw [hat]; nofun)
            (by rw [hat]; rfl) ⟨nofun, nofun, nofun⟩ nofun ?_ nofun ?_
          · intro c j rest' heq
            cases heq
            exact ⟨rfl, rfl⟩
          · intro c j hj hunread
            rw [Unread, hat] at hunread
            rcases hunread with hmem | ⟨rfl, hi⟩
            · exact hmem
            · exact absurd rfl (h.fd_ne hi (by rw [hfree]; nofun))
      · next hheld =>
          split at hstep
          · next roots hroots =>
              cases hstep
              refine h.advance Finset.subset_union_left (by rw [hat]; nofun) (by rw [hat]; nofun)
                (fun _ => .inl (by rw [hat]; rfl)) ⟨nofun, nofun, nofun⟩ nofun nofun ?_
              intro c i p hi hmem hp hunread
              rw [Unread, hat] at hunread
              rcases hunread with hrest | ⟨rfl, hi₀⟩
              · exact .inl hrest
              · cases hi.symm.trans hi₀
                exact .inr (Finset.mem_union_right _ (readRoots_mem hroots hp hmem))
          · cases hstep
            exact h.advance (fun _ hm => hm) (by rw [hat]; nofun) (by rw [hat]; nofun) nofun
              ⟨nofun, nofun, nofun⟩ nofun nofun (fun _ _ _ _ _ _ _ => .inl trivial)
  | stale c₀ i₀ rest =>
      rw [readStep, hat] at hstep
      cases hstep
      exact h.unlink hat (hunlink c₀ i₀ rest hat)
  | unlinked i₀ rest =>
      rw [readStep, hat] at hstep
      cases hstep
      have hlock := h.unlinked i₀ rest hat
      refine h.mark (h.locked i₀ (by rw [hlock]; nofun)) (by rw [hlock]; nofun) (fun _ => rfl) ?_
        (by rw [hat]; rfl) ⟨nofun, nofun, nofun⟩ nofun nofun nofun ?_
      · intro j rest' heq
        cases hat.symm.trans heq
        exact ⟨rfl, rfl⟩
      · intro c j _ hunread
        rw [Unread, hat] at hunread
        exact hunread
  | idle | locked | serving | scanning | deleting _ | stopped =>
      rw [readStep, hat] at hstep
      cases hstep

-- ============================================================================
-- Runs
-- ============================================================================

variable (store) in
/-- What a step has to meet: roots can be sent, an answer of a run that is over
    is not used when the next run has read the file, the kernel lists all files,
    a stale file is not unlinked when its name stands for a new one, no `flock` is
    interrupted, and an entry that has no store path's name does not carry the hash
    part of a root. -/
def Orderly (s : State) : Act → Prop
  | .begin _ path => Sendable store path
  | .client c => InTime s c
  | .interrupted _ | .lockInterrupted => False
  | .sweep name => ∀ c, ∀ p ∈ (s.clients c).rooted, ¬ p.hashPart <+: name
  | .list pids => ∀ c, s.names c ≠ none → c ∈ pids
  | .read => ∀ c i rest, s.collector = .stale c i rest → ∀ j, s.names c = some j → j = i
  | _ => True

/-- A step of the collector. -/
theorem Inv.collectorStep (h : Inv store s) {a : Act} (hok : Orderly store s a)
    (hstep : collectorStep store s a = some s') : Inv store s' := by
  cases a with
  | lock =>
      simp only [TempRoots.collectorStep] at hstep
      split at hstep
      · next hfree =>
          cases hstep
          exact h.lock hfree.1 hfree.2
      · cases hstep
  | serve =>
      simp only [TempRoots.collectorStep] at hstep
      split at hstep
      · next hat =>
          cases hstep
          exact h.advance (fun _ hm => hm) (by rw [hat]; nofun) (by rw [hat]; nofun)
            (fun _ => .inr hat) ⟨nofun, nofun, nofun⟩ nofun nofun (fun _ _ _ _ _ _ _ => .inl trivial)
      · cases hstep
  -- readdir lists the file of every process that has one
  | list pids =>
      simp only [TempRoots.collectorStep] at hstep
      split at hstep
      · next hat =>
          cases hstep
          refine h.advance (fun _ hm => hm) (by rw [hat]; nofun) (by rw [hat]; nofun)
            (fun _ => .inl (by rw [hat]; rfl)) ⟨nofun, nofun, nofun⟩ nofun nofun ?_
          intro c i p hi _ _ _
          have hname := ((h.clients c).file.held i hi).2.1
          exact .inl (hok c (by rw [hname]; nofun))
      · cases hstep
  | read => exact h.read hok hstep
  -- `visit` and `recheck` are where a root keeps a path from being deleted
  | visit hash =>
      simp only [TempRoots.collectorStep] at hstep
      split at hstep
      · next hat =>
          cases hstep
          show Inv store { s with collector := s.collector, tempRoots := s.tempRoots, pending := _ }
          refine h.advance (fun _ hm => hm) (by rw [hat]; nofun)
            (by rw [hat]; nofun) .inl (by rw [hat]; exact ⟨nofun, nofun, nofun⟩)
            (by rw [hat]; nofun) (by rw [hat]; nofun) ?_
          intro c i p _ _ _ hunread
          exact .inl hunread
      · cases hstep
  | recheck hash =>
      simp only [TempRoots.collectorStep] at hstep
      split at hstep
      · next hat =>
          split at hstep
          · cases hstep
            exact h
          · next hmem =>
              cases hstep
              refine h.advance (fun _ hm => hm) (by rw [hat]; nofun) (by rw [hat]; nofun)
                (fun _ => .inl (by rw [hat]; rfl)) ⟨nofun, nofun, nofun⟩ nofun ?_ ?_
              · intro hash' heq
                cases heq
                exact ⟨hmem, rfl⟩
              · intro c i p _ _ _ hunread
                rw [Unread, hat] at hunread
                exact hunread.elim
      · cases hstep
  | destroy hash =>
      simp only [TempRoots.collectorStep] at hstep
      split at hstep
      · cases hstep
        exact h
      · cases hstep
  -- excluded: the run would begin while clients hold the lock
  | lockInterrupted => exact hok.elim
  | sweep name =>
      simp only [TempRoots.collectorStep] at hstep
      split at hstep
      · cases hstep
        exact h
      · cases hstep
  -- what ends a deletion or the run forgets what is pending
  | reset =>
      simp only [TempRoots.collectorStep] at hstep
      split at hstep
      · next hat =>
          cases hstep
          refine h.advance (fun _ hm => hm) (by rw [hat]; nofun) (by rw [hat]; nofun)
            (fun _ => .inl (by rw [hat]; rfl)) ⟨nofun, nofun, nofun⟩ nofun nofun ?_
          intro c i p _ _ _ hunread
          rw [Unread, hat] at hunread
          exact hunread.elim
      · next hash hat =>
          cases hstep
          refine h.advance (fun _ hm => hm) (by rw [hat]; nofun) (by rw [hat]; nofun)
            (fun _ => .inl (by rw [hat]; rfl)) ⟨nofun, nofun, nofun⟩ nofun nofun ?_
          intro c i p _ _ _ hunread
          rw [Unread, hat] at hunread
          exact hunread.elim
      · cases hstep
  | stop =>
      simp only [TempRoots.collectorStep] at hstep
      split at hstep
      · cases hstep
      · cases hstep
      · next hmark =>
          split at hstep
          · next hup =>
              cases hstep
              refine h.advance (fun _ hm => hm) ?_ hmark nofun ⟨nofun, nofun, nofun⟩ nofun nofun
                (fun _ _ _ _ _ _ _ => .inl trivial)
              intro hidle
              rw [hidle] at hup
              cases hup
          · cases hstep
  | unlock =>
      simp only [TempRoots.collectorStep] at hstep
      split at hstep
      · next hat =>
          cases hstep
          refine h.advance (fun _ hm => hm) ?_ ?_ nofun ⟨nofun, nofun, nofun⟩ nofun nofun
            (fun _ _ _ _ _ _ _ => .inl trivial)
          · rcases hat with hat | hat <;> rw [hat] <;> nofun
          · rcases hat with hat | hat <;> rw [hat] <;> nofun
      · cases hstep
  | begin _ _ | client _ | interrupted _ | die _ | start _ | receive _ | ack _ => cases hstep

/-- What an orderly step keeps. -/
theorem Inv.step (h : Inv store s) {a : Act} (hok : Orderly store s a)
    (hstep : step store s a = some s') : Inv store s' := by
  cases a with
  | begin c path => exact h.begin hok hstep
  | client c => exact h.clientStep hok hstep
  | die c =>
      cases hstep
      exact h.die c
  | start c =>
      simp only [TempRoots.step] at hstep
      split at hstep
      · cases hstep
      · cases hstep
        exact h.start c
  | receive c => exact h.receive hstep
  | ack c => exact h.ack hstep
  | interrupted c => exact hok.elim
  | lock | lockInterrupted | serve | list _ | read | visit _ | recheck _ | destroy _ | sweep _
  | reset | stop | unlock => exact h.collectorStep hok hstep

/-- What holds in every state that orderly steps lead to. -/
theorem inv_reachable (h : (system store).Reachable (Orderly store) s) : Inv store s :=
  h.invariant (fun _ => inv_initial) (fun _ _ _ hI hok hstep => hI.step hok hstep)

/-- What is being deleted is not a root of a process. -/
theorem Inv.not_rooted (h : Inv store s) {hash : Bytes} (hat : s.collector = .deleting hash)
    {p : StorePath} (hp : p ∈ (s.clients c).rooted) : p.hashPart ≠ hash := by
  obtain ⟨i, hi, hmem⟩ := (h.clients c).file.rooted p hp
  obtain ⟨q, -, heq, -, hne⟩ := (h.clients c).file.covered i _ hi hmem
  rw [store.printStorePath_inj heq]
  exact hne hash hat

theorem destroy_eq_some {hash : Bytes} (h : step store s (.destroy hash) = some s') :
    s.collector = .deleting hash := by
  simp only [TempRoots.step, TempRoots.collectorStep] at h
  split at h
  · next hat => exact hat
  · cases h

-- ============================================================================
-- What steps leave alone
-- ============================================================================

theorem rooted_setClient {q : Pid} {x : Client} (halive : x.alive = (s.clients q).alive)
    (hrooted : (s.clients q).rooted ⊆ x.rooted) (c : Pid) :
    ((s.setClient q x).clients c).alive = (s.clients c).alive ∧
      (s.clients c).rooted ⊆ ((s.setClient q x).clients c).rooted := by
  by_cases hc : c = q
  · subst hc
    show (Function.update s.clients c x c).alive = _ ∧ _ ⊆ (Function.update s.clients c x c).rooted
    rw [Function.update_self]
    exact ⟨halive, hrooted⟩
  · show (Function.update s.clients q x c).alive = _ ∧ _ ⊆ (Function.update s.clients q x c).rooted
    rw [Function.update_of_ne hc]
    exact ⟨rfl, fun _ h => h⟩

theorem clients_openTemp (s : State) (c : Pid) : (openTemp s c).2.clients = s.clients := by
  unfold openTemp
  split
  · rfl
  · rfl

theorem collector_openTemp (s : State) (c : Pid) : (openTemp s c).2.collector = s.collector := by
  unfold openTemp
  split
  · rfl
  · rfl

theorem clientStep_keeps {q : Pid} (h : clientStep store s q = some s') (c : Pid) :
    s'.collector = s.collector ∧ (s'.clients c).alive = (s.clients c).alive ∧
      (s.clients c).rooted ⊆ (s'.clients c).rooted := by
  have hset : ∀ (t : State) (x : Client), t.clients = s.clients → t.collector = s.collector →
      x.alive = (s.clients q).alive → (s.clients q).rooted ⊆ x.rooted →
      (t.setClient q x).collector = s.collector ∧
      ((t.setClient q x).clients c).alive = (s.clients c).alive ∧
      (s.clients c).rooted ⊆ ((t.setClient q x).clients c).rooted := by
    intro t x ht htc halive hrooted
    rw [← ht] at halive hrooted
    have hkeep := rooted_setClient halive hrooted c
    rw [ht] at hkeep
    exact ⟨htc, hkeep⟩
  have hgoto : ∀ (t : State) pc, t.clients = s.clients → t.collector = s.collector →
      (t.goto q pc).collector = s.collector ∧
      ((t.goto q pc).clients c).alive = (s.clients c).alive ∧
      (s.clients c).rooted ⊆ ((t.goto q pc).clients c).rooted := by
    intro t pc ht htc
    refine hset t { t.clients q with pc } ht htc ?_ ?_
    · rw [ht]
    · rw [ht]
      exact fun _ h => h
  simp only [clientStep] at h
  repeat' split at h
  all_goals cases h
  all_goals first
    | exact hgoto _ _ rfl rfl
    | exact hgoto _ _ (clients_openTemp s q) (collector_openTemp s q)
    | exact hset _ _ rfl rfl rfl (fun _ h => h)
    | exact hset _ _ rfl rfl rfl (fun _ h => List.mem_cons_of_mem _ h)

/-- A process that lives keeps its roots until it dies.  A collector that is
    deleting goes on until it resets what is pending or stops. -/
theorem step_keeps {a : Act} (h : step store s a = some s') (c : Pid) (hdie : a ≠ .die c) :
    ((s.clients c).alive = true → (s'.clients c).alive = true ∧
      (s.clients c).rooted ⊆ (s'.clients c).rooted) ∧
    ∀ hash, s.collector = .deleting hash → a ≠ .reset → a ≠ .stop → s'.collector = s.collector := by
  have hframe : s'.clients = s.clients → (s.clients c).alive = true →
      (s'.clients c).alive = true ∧ (s.clients c).rooted ⊆ (s'.clients c).rooted := by
    intro hclients halive
    rw [hclients]
    exact ⟨halive, fun _ h => h⟩
  have hset : ∀ (t : State) (q : Pid) (pc : ClientPc), t.clients = s.clients →
      (s.clients c).alive = true → ((t.goto q pc).clients c).alive = true ∧
      (s.clients c).rooted ⊆ ((t.goto q pc).clients c).rooted := by
    intro t q pc ht halive
    have hkeep := rooted_setClient (s := t) (q := q) (x := { t.clients q with pc }) rfl
      (fun _ h => h) c
    rw [← ht] at halive ⊢
    exact ⟨hkeep.1.trans halive, hkeep.2⟩
  -- only `die` and `start` change which processes live, and `start` only a dead one
  cases a with
  | begin q path =>
      simp only [step, beginStep] at h
      split at h
      · cases h
        exact ⟨hset s q _ rfl, fun _ _ _ _ => rfl⟩
      · cases h
  | client q =>
      have hkeep := clientStep_keeps h c
      exact ⟨fun halive => ⟨hkeep.2.1.trans halive, hkeep.2.2⟩, fun _ _ _ _ => hkeep.1⟩
  | interrupted q =>
      simp only [step, interruptedStep] at h
      repeat' split at h
      all_goals cases h
      exact ⟨hset s q _ rfl, fun _ _ _ _ => rfl⟩
  | die q =>
      cases h
      have hc : c ≠ q := fun heq => hdie (heq ▸ rfl)
      have hother : (dieStep s q).clients c = s.clients c := Function.update_of_ne hc _ _
      rw [hother]
      exact ⟨fun halive => ⟨halive, fun _ h => h⟩, fun _ _ _ _ => rfl⟩
  | start q =>
      simp only [step] at h
      split at h
      · cases h
      · next hdead =>
          cases h
          refine ⟨fun halive => ?_, fun _ _ _ _ => rfl⟩
          have hc : c ≠ q := by
            rintro rfl
            exact hdead halive
          have hother : (s.setClient q Client.new).clients c = s.clients c :=
            Function.update_of_ne hc _ _
          rw [hother]
          exact ⟨halive, fun _ h => h⟩
  | receive q =>
      simp only [step, receiveStep] at h
      repeat' split at h
      all_goals cases h
      all_goals exact ⟨hset _ q _ rfl, fun _ _ _ _ => rfl⟩
  | ack q =>
      simp only [step, ackStep] at h
      repeat' split at h
      all_goals cases h
      all_goals exact ⟨hset _ q _ rfl, fun _ _ _ _ => rfl⟩
  -- the collector is at one place, and the roots of the clients are not its
  | read =>
      have hat : ∀ hash, s.collector ≠ .deleting hash := by
        intro hash hat
        simp [step, collectorStep, readStep, hat] at h
      refine ⟨hframe ?_, fun hash h' => absurd h' (hat hash)⟩
      simp only [step, collectorStep, readStep] at h
      repeat' split at h
      all_goals cases h
      all_goals rfl
  | lock | lockInterrupted | serve | list _ | visit _ | recheck _ | destroy _ | sweep _ | reset | stop
  | unlock =>
      simp only [step, collectorStep] at h
      repeat' split at h
      all_goals cases h
      all_goals refine ⟨hframe rfl, fun hash hat hreset hstop => ?_⟩
      all_goals first
        | rfl
        | exact absurd rfl hreset
        | exact absurd rfl hstop
        | simp_all

-- ============================================================================
-- Protection
-- ============================================================================

/-- Whether a step invalidates or deletes an entry with this hash part. -/
def Act.Deletes (hash : Bytes) : Act → Prop
  | .destroy hash' => hash = hash'
  | .sweep name => hash <+: name
  | _ => False

variable (store) in
/-- In every run whose steps are orderly, nothing with the hash part of a path is
    invalidated or deleted while a process lives for which `addTempRoot` of that
    path has returned.  (`dieStep` leaves `rooted` empty.) -/
theorem addTempRoot_protects (s : State) (h : (system store).Reachable (Orderly store) s)
    (a : Act) (hok : Orderly store s a) (s' : State) (hstep : step store s a = some s')
    (c : Pid) (p : StorePath) (hp : p ∈ (s.clients c).rooted) : ¬ a.Deletes p.hashPart := by
  cases a with
  | destroy hash => exact (inv_reachable h).not_rooted (destroy_eq_some hstep) hp
  | sweep name => exact hok c p hp
  | begin _ _ | client _ | interrupted _ | die _ | start _ | receive _ | ack _ | lock
  | lockInterrupted | serve | list _ | read | visit _ | recheck _ | reset | stop | unlock =>
      exact not_false

namespace Sample

open LocalStore.Sample (pathA)

/-- A store path with a hash part of its own. -/
def pathC : StorePath := ⟨ascii "11111111111111111111111111111111-c", by decide +kernel⟩

/-- Nobody has ever run. -/
def start : State where
  names _ := none
  files _ := { roots := [], marked := false, lock := none }
  nextFile := 0
  clients _ := { Client.new with alive := false }
  shared := ∅
  run := 0
  collector := .idle
  tempRoots := ∅
  pending := none

theorem initial_start : Initial start :=
  ⟨fun _ => ⟨rfl, rfl, rfl, rfl, rfl⟩, rfl, rfl, nofun, fun _ => rfl⟩

variable (store) in
/-- A check of orderly steps other than `list`. -/
def orderly (s : State) : Act → Bool
  | .begin _ path => decide (LocalStore.Readable path) && !(store.printStorePath path).contains 0x0a
  | .client c =>
      match (s.clients c).pc with
      | .append _ (some r) => r == s.run
      | _ => true
  | .list _ | .interrupted _ | .lockInterrupted | .sweep _ => false
  | .read =>
      match s.collector with
      | .stale _ _ _ => false
      | _ => true
  | _ => true

theorem orderly_sound (s : State) (a : Act) (h : orderly store s a = true) : Orderly store s a := by
  cases a with
  | begin c path =>
      simp only [orderly, Bool.and_eq_true, decide_eq_true_eq, Bool.not_eq_true',
        List.contains_eq_mem, decide_eq_false_iff_not] at h
      exact h
  | client c =>
      intro p r hat
      simp only [orderly, hat] at h
      exact .inl (beq_iff_eq.mp h)
  | list _ | interrupted _ | lockInterrupted | sweep _ => cases h
  | read =>
      intro c i rest hat
      simp only [orderly, hat] at h
      cases h
  | die _ | start _ | receive _ | ack _ | lock | serve | visit _ | recheck _ | destroy _ | reset
  | stop | unlock => trivial

/-- A process registers a root under the shared lock, then a collector starts. -/
def registering : List Act :=
  [.start 0, .begin 0 pathA] ++ List.replicate 7 (.client 0) ++ [.lock, .serve]

/-- The collector has read the file and comes to another path. -/
def collecting : List Act := [.read, .read, .read, .visit pathC.hashPart, .recheck pathC.hashPart]

/-- A process has the answer of a collector.  That collector ends, and the next
    one reads the file of the process before the root is in it. -/
def betweenRuns : List Act :=
  [.start 0, .begin 0 pathA] ++ List.replicate 4 (.client 0) ++ [.lock, .serve] ++
    List.replicate 3 (.client 0) ++ [.receive 0, .ack 0, .client 0, .stop, .unlock] ++
    [.lock, .serve, .list [0], .read, .read, .read, .client 0, .client 0,
      .visit pathA.hashPart, .recheck pathA.hashPart]

end Sample

/-- A path is deleted while another one is a root. -/
theorem addTempRoot_protects_other : ∃ s s',
    (system LocalStore.Sample.store).Reachable (Orderly LocalStore.Sample.store) s ∧
    step LocalStore.Sample.store s (.destroy Sample.pathC.hashPart) = some s' ∧
    LocalStore.Sample.pathA ∈ (s.clients 0).rooted ∧
    ¬ (Act.destroy Sample.pathC.hashPart).Deletes LocalStore.Sample.pathA.hashPart := by
  obtain ⟨s₁, hrun₁, hat₁⟩ : ∃ s₁, (system LocalStore.Sample.store).runChecked
      (Sample.orderly LocalStore.Sample.store) Sample.registering Sample.start = some s₁ ∧
      s₁.names = Function.update (Function.update (fun _ => none) 0 none) 0 (some 0) := by
    refine Option.map_eq_some_iff.mp ?_
    rfl
  have h₁ := System.Reachable.runChecked Sample.orderly_sound (.init Sample.initial_start) hrun₁
  -- the only file is that of the process
  have hlist : Orderly LocalStore.Sample.store s₁ (.list [0]) := by
    intro c hname
    by_cases hc : c = 0
    · exact List.mem_singleton.mpr hc
    · rw [hat₁, Function.update_of_ne hc, Function.update_of_ne hc] at hname
      exact absurd rfl hname
  obtain ⟨s, hrun, hat⟩ : ∃ s, ((system LocalStore.Sample.store).runChecked
      (Sample.orderly LocalStore.Sample.store) Sample.registering Sample.start).bind (fun s₁ =>
        ((system LocalStore.Sample.store).step s₁ (.list [0])).bind
          ((system LocalStore.Sample.store).runChecked (Sample.orderly LocalStore.Sample.store)
            Sample.collecting)) = some s ∧
      (s.collector, (s.clients 0).rooted)
        = (.deleting Sample.pathC.hashPart, [LocalStore.Sample.pathA]) := by
    refine Option.map_eq_some_iff.mp ?_
    decide +kernel
  obtain ⟨hcollector, hrooted⟩ := Prod.mk.inj hat
  rw [hrun₁, Option.bind_some] at hrun
  obtain ⟨s₂, hlisted, hrun⟩ := Option.bind_eq_some_iff.mp hrun
  have h := System.Reachable.runChecked Sample.orderly_sound (.step h₁ hlist hlisted) hrun
  have hdestroy : step LocalStore.Sample.store s (.destroy Sample.pathC.hashPart) = some s :=
    if_pos hcollector
  have hp : LocalStore.Sample.pathA ∈ (s.clients 0).rooted := by
    rw [hrooted]
    exact List.mem_singleton.mpr rfl
  exact ⟨s, s, h, hdestroy, hp, addTempRoot_protects LocalStore.Sample.store s h
    (.destroy Sample.pathC.hashPart) trivial s hdestroy 0 LocalStore.Sample.pathA hp⟩

/-- Between two runs of the collector a root is lost. -/
theorem addTempRoot_unprotected : Initial Sample.start ∧ ∃ s s',
    (system LocalStore.Sample.store).run Sample.betweenRuns Sample.start = some s ∧
    (s.clients 0).alive = true ∧ LocalStore.Sample.pathA ∈ (s.clients 0).rooted ∧
    step LocalStore.Sample.store s (.destroy LocalStore.Sample.pathA.hashPart) = some s' := by
  refine ⟨Sample.initial_start, ?_⟩
  obtain ⟨s, hrun, hat⟩ : ∃ s,
      (system LocalStore.Sample.store).run Sample.betweenRuns Sample.start = some s ∧
      ((s.clients 0).alive, (s.clients 0).rooted, s.collector) = (true,
        [LocalStore.Sample.pathA], .deleting LocalStore.Sample.pathA.hashPart) := by
    refine Option.map_eq_some_iff.mp ?_
    decide +kernel
  obtain ⟨halive, hat⟩ := Prod.mk.inj hat
  obtain ⟨hrooted, hcollector⟩ := Prod.mk.inj hat
  refine ⟨s, s, hrun, halive, ?_, if_pos hcollector⟩
  rw [hrooted]
  exact List.mem_singleton.mpr rfl

end TempRoots
end NixStore
