/-
  NixStore.Store.AutoGC

  `LocalStore::autoGC` (`libstore/gc.cc`) and the destructor of `LocalStore`
  (`libstore/local-store.cc`): any number of threads of one process share the
  state of the store under one lock, and at most one collector thread.

  What is outside (the clock, the free space, when `collectGarbage` uses the
  store or throws, whether a thread can be made) is open: it is an argument of
  the action.  `avail > availAfterGC * 0.97` is a comparison of floating-point
  numbers and is a parameter.
-/

import NixStore.Lib.Transition
import Mathlib.Data.Fintype.Basic

namespace NixStore
namespace AutoGC

/-- The settings that `autoGC` reads. -/
structure Settings where
  minFree : UInt64
  maxFree : UInt64
  minFreeCheckInterval : Nat
  /-- `avail > availAfterGC * 0.97`. -/
  littleLost : UInt64 → UInt64 → Bool

/-- Where a call of `autoGC(sync)` is. -/
inductive ClientPc where
  | idle
  /-- `_state->lock()`. -/
  | wantLock (sync : Bool)
  /-- Has the lock; looks at `gcRunning` and at the clock. -/
  | look (sync : Bool)
  /-- `getAvail()`. -/
  | getAvail (sync : Bool) (now : Nat)
  /-- `gcThread.join()`. -/
  | join (sync : Bool) (avail : UInt64)
  /-- `gcRunning = true`, and the thread is made. -/
  | start (sync : Bool) (avail : UInt64)
  /-- At `sync:`, without the lock, with the future of this collection. -/
  | wait (sync : Bool) (collection : Nat)
deriving DecidableEq

/-- Where a collector thread is. -/
inductive Phase where
  | notStarted
  /-- In `collectGarbage`, which will take the lock so many times. -/
  | collecting (uses : Nat)
  /-- In `collectGarbage`, with the lock. -/
  | using_ (uses : Nat)
  /-- `getAvail()`. -/
  | getAvail
  /-- `_state->lock()->availAfterGC = …`. -/
  | wantStore (avail : UInt64)
  | store (avail : UInt64)
  /-- The lock of `wakeup`. -/
  | wantFinish
  | finish
  /-- `wakeup` has run. -/
  | leaving
  | exited
deriving DecidableEq

/-- Where the destructor is. -/
inductive DestructorPc where
  | notCalled
  | wantLock
  | look
  /-- `future.get()`. -/
  | wait (collection : Nat)
  | wantLockAgain
  /-- `gcThread.join()`, if it is joinable. -/
  | join
  | done
  /-- An exception has left the destructor. -/
  | terminated
deriving DecidableEq

/-- What has become of the promise of a collection. -/
inductive Promise where
  | pending
  | fulfilled
  | broken
deriving DecidableEq

inductive Agent (Cid : Type) where
  | client (c : Cid)
  | collector (collection : Nat)
  | destructor
deriving DecidableEq

/-- The state of the store that `autoGC` uses, and the threads. -/
structure State (Cid : Type) where
  /-- Who has the lock. -/
  owner : Option (Agent Cid)
  lastGCCheck : Nat
  gcRunning : Bool
  /-- The collection whose future `gcFuture` is; the first one is 1. -/
  gcFuture : Nat
  /-- `gcThread.joinable()`; the thread is the one of `gcFuture`. -/
  joinable : Bool
  availAfterGC : UInt64
  clock : Nat
  pc : Cid → ClientPc
  thread : Nat → Phase
  promise : Nat → Promise
  destructor : DestructorPc
  /-- `options.maxFreed` of each collection. -/
  maxFreed : Nat → UInt64
  /-- When the free space was looked at, the last time first. -/
  checks : List Nat

variable {Cid : Type} [DecidableEq Cid]

namespace State

def setPc (s : State Cid) (c : Cid) (pc : ClientPc) : State Cid :=
  { s with pc := Function.update s.pc c pc }

def setThread (s : State Cid) (g : Nat) (phase : Phase) : State Cid :=
  { s with thread := Function.update s.thread g phase }

def lock (s : State Cid) (a : Agent Cid) : State Cid := { s with owner := some a }

def unlock (s : State Cid) : State Cid := { s with owner := none }

end State

/-- What a call of `autoGC` does next. -/
inductive ClientAct where
  | call (sync : Bool)
  | lock
  /-- Reads the clock. -/
  | look (now : Nat)
  /-- `getAvail` returns, or throws. -/
  | getAvail (avail : Option UInt64)
  | join
  /-- The thread is made, and will take the lock so many times in
      `collectGarbage`; or it cannot be made. -/
  | start (uses : Option Nat)
  /-- `if (sync) future.get()`. -/
  | get

/-- What a collector thread does next. -/
inductive ThreadAct where
  | lock
  | unlock
  /-- `collectGarbage` returns. -/
  | collected
  /-- It throws. -/
  | thrown
  | getAvail (avail : Option UInt64)
  | store
  /-- `wakeup` reads the clock. -/
  | finish (now : Nat)
  | exit

inductive DestructorAct where
  | call
  | lock
  | look
  | get
  | join

inductive Act (Cid : Type) where
  | client (c : Cid) (act : ClientAct)
  | thread (g : Nat) (act : ThreadAct)
  | destructor (act : DestructorAct)

variable (settings : Settings)

/-- A step of `autoGC`. -/
def clientStep (s : State Cid) (c : Cid) (act : ClientAct) : Option (State Cid) :=
  match s.pc c, act with
  | .idle, .call sync =>
      if s.destructor = .notCalled then some (s.setPc c (.wantLock sync)) else none
  | .wantLock sync, .lock =>
      if s.owner = none then some ((s.lock (.client c)).setPc c (.look sync)) else none
  | .look sync, .look now =>
      if s.gcRunning then some (s.unlock.setPc c (.wait sync s.gcFuture))
      else if now < s.clock then none
      else if now < s.lastGCCheck + settings.minFreeCheckInterval then
        some ({ s with clock := now }.unlock.setPc c .idle)
      else some ({ s with clock := now }.setPc c (.getAvail sync now))
  | .getAvail _ _, .getAvail none => some (s.unlock.setPc c .idle)
  | .getAvail sync now, .getAvail (some avail) =>
      let s := { s with lastGCCheck := now, checks := now :: s.checks }
      if avail ≥ settings.minFree ∨ avail ≥ settings.maxFree then some (s.unlock.setPc c .idle)
      else if settings.littleLost avail s.availAfterGC then some (s.unlock.setPc c .idle)
      else some (s.setPc c (if s.joinable then .join sync avail else .start sync avail))
  | .join sync avail, .join =>
      if s.thread s.gcFuture = .exited then
        some ({ s with joinable := false }.setPc c (.start sync avail))
      else none
  | .start sync avail, .start uses =>
      let g := s.gcFuture + 1
      let s := { s with gcRunning := true, gcFuture := g }
      match uses with
      | some uses =>
          some ({ s with
            joinable := true
            maxFreed := Function.update s.maxFreed g (settings.maxFree - avail)
          }.setThread g (.collecting uses) |>.unlock.setPc c (.wait sync g))
      -- the exception destroys the promise
      | none => some ({ s with
          promise := Function.update s.promise g .broken }.unlock.setPc c .idle)
  | .wait sync g, .get =>
      if sync = true ∧ s.promise g = .pending then none else some (s.setPc c .idle)
  | _, _ => none

/-- A step of the collector thread. -/
def threadStep (s : State Cid) (g : Nat) (act : ThreadAct) : Option (State Cid) :=
  match s.thread g, act with
  | .collecting uses, .lock =>
      if s.owner = none ∧ uses ≠ 0 then
        some ((s.lock (.collector g)).setThread g (.using_ (uses - 1)))
      else none
  | .using_ uses, .unlock => some (s.unlock.setThread g (.collecting uses))
  | .collecting uses, .collected => if uses = 0 then some (s.setThread g .getAvail) else none
  | .collecting _, .thrown => some (s.setThread g .wantFinish)
  | .using_ _, .thrown => some (s.unlock.setThread g .wantFinish)
  | .getAvail, .getAvail (some avail) => some (s.setThread g (.wantStore avail))
  | .getAvail, .getAvail none => some (s.setThread g .wantFinish)
  | .wantStore avail, .lock =>
      if s.owner = none then some ((s.lock (.collector g)).setThread g (.store avail)) else none
  | .store avail, .store => some ({ s with availAfterGC := avail }.unlock.setThread g .wantFinish)
  | .wantFinish, .lock =>
      if s.owner = none then some ((s.lock (.collector g)).setThread g .finish) else none
  | .finish, .finish now =>
      if now < s.clock then none
      else some ({ s with
        clock := now
        gcRunning := false
        lastGCCheck := now
        promise := Function.update s.promise g .fulfilled }.unlock.setThread g .leaving)
  | .leaving, .exit => some (s.setThread g .exited)
  | _, _ => none

variable [Fintype Cid]

/-- A step of the destructor, which is called when nobody uses the store. -/
def destructorStep (s : State Cid) (act : DestructorAct) : Option (State Cid) :=
  match s.destructor, act with
  | .notCalled, .call =>
      if ∀ c, s.pc c = .idle then some { s with destructor := .wantLock } else none
  | .wantLock, .lock =>
      if s.owner = none then some { s.lock .destructor with destructor := .look } else none
  | .look, .look =>
      some { s.unlock with
        destructor := if s.gcRunning then .wait s.gcFuture else .wantLockAgain }
  | .wait g, .get =>
      match s.promise g with
      | .pending => none
      | .fulfilled => some { s with destructor := .wantLockAgain }
      | .broken => some { s with destructor := .terminated }
  | .wantLockAgain, .lock =>
      if s.owner = none then some { s.lock .destructor with destructor := .join } else none
  | .join, .join =>
      if s.joinable = true ∧ s.thread s.gcFuture ≠ .exited then none
      else some { s.unlock with joinable := false, destructor := .done }
  | _, _ => none

/-- Nothing has been collected yet. -/
def initial : State Cid where
  owner := none
  lastGCCheck := 0
  gcRunning := false
  gcFuture := 0
  joinable := false
  availAfterGC := 0xffffffffffffffff
  clock := 0
  pc := fun _ => .idle
  thread := fun _ => .notStarted
  promise := fun _ => .pending
  destructor := .notCalled
  maxFreed := fun _ => 0
  checks := []

/-- The threads of a process, in any order. -/
def system : System (State Cid) (Act Cid) where
  init := fun s => s = initial
  step := fun s a =>
    match a with
    | .client c act => clientStep settings s c act
    | .thread g act => threadStep s g act
    | .destructor act => destructorStep s act

/-- A step of the calls and threads that there are, not a new call. -/
def Act.isInternal : Act Cid → Bool
  | .client _ (.call _) | .destructor .call => false
  | _ => true

end AutoGC
end NixStore
