/-
  NixStore.Util.ProcessGraph

  `processGraph` of `libutil/thread-pool.hh`.

  The nodes are the items of a `ThreadPool`; an item calls `worker`.  One step
  of an item is what it does while it has the lock of `graph_`, a call or the
  return of `processNode`, or, in the loop that retires a node, what it does
  for one of the nodes that wait: `pool.enqueue` is called in that loop, so
  other threads of the pool go on while the lock is held.  Neither `getEdges`
  nor `processNode` throws.  As `getEdges` is called once for a node at most, a
  function says all about it.
-/

import NixStore.Lib.OrderedSet
import NixStore.Util.ThreadPool

namespace NixStore

open OrderedSet

-- ============================================================================
-- Section 1: The graph
-- ============================================================================

/-- Where `worker` is for its node. -/
inductive WorkerPoint (α : Type) where
  | start
  | getRefs
  | doWork
  /-- In `processNode`. -/
  | processing
  /-- Before the lock is taken for the last time. -/
  | processed
  /-- In the loop over `rrefs[node]`, with the lock. -/
  | retiring (rrefs : List α)
deriving DecidableEq

namespace WorkerPoint

variable {α : Type}

instance : Inhabited (WorkerPoint α) := ⟨.start⟩

/-- `processNode` has been called for the node. -/
def isCalled : WorkerPoint α → Bool
  | .processing => true
  | .processed => true
  | .retiring _ => true
  | _ => false

/-- `processNode` has returned for the node. -/
def isReturned : WorkerPoint α → Bool
  | .processed => true
  | .retiring _ => true
  | _ => false

end WorkerPoint

/-- `Graph` in `processGraph`.  Whether a node has an entry in `refs` matters,
    whether it has one in `rrefs` does not. -/
structure Graph (α : Type) where
  left : Finset α
  refs : α → Option (Finset α)
  rrefs : α → Finset α

namespace Graph

variable {α : Type} [LinearOrder α]

/-- `refs[node]`. -/
def refsOf (g : Graph α) (node : α) : Finset α := (g.refs node).getD ∅

def setRefs (node : α) (refs : Finset α) (g : Graph α) : Graph α :=
  { g with refs := Function.update g.refs node (some refs) }

/-- The loop body of the `getRefs` part. -/
def addRef (node : α) (g : Graph α) (ref : α) : Graph α :=
  if ref ∈ g.left then
    let g := g.setRefs node (insert ref (g.refsOf node))
    { g with rrefs := Function.update g.rrefs ref (insert node (g.rrefs ref)) }
  else g

/-- The locked part of `getRefs`, with the edges of the node; the look at
    `refs[node]` at its end makes an entry if there is none. -/
def register (node : α) (refs : Finset α) (g : Graph α) : Graph α :=
  let g := (inOrder refs).foldl (addRef node) g
  g.setRefs node (g.refsOf node)

/-- The loop body of the `doWork` part, up to the test.  The assertion is that
    the node is found. -/
def retire (node rref : α) (g : Graph α) : Option (Graph α) :=
  if node ∈ g.refsOf rref then some (g.setRefs rref ((g.refsOf rref).erase node)) else none

/-- The end of the `doWork` part. -/
def leave (node : α) (g : Graph α) : Graph α where
  left := g.left.erase node
  refs := Function.update g.refs node none
  rrefs := Function.update g.rrefs node ∅

end Graph

-- ============================================================================
-- Section 2: The steps
-- ============================================================================

/-- What `processNode` is seen to do. -/
inductive NodeEvent (α : Type) where
  | called (node : α)
  | returned (node : α)
deriving DecidableEq

/-- The state of `processGraph`. -/
structure ProcessGraph (α : Type) where
  graph : Graph α
  /-- The lock of `graph_` is held between two steps. -/
  locked : Bool
  pool : ThreadPool α (WorkerPoint α) String
  /-- The nodes that have not been enqueued yet. -/
  todo : List α
  /-- How it ends, once the pool has been destroyed. -/
  outcome : Option (Except String Unit)
  log : List (NodeEvent α)

/-- `ThreadPoolShutDown`. -/
def threadPoolShutDown : String :=
  "cannot enqueue a work item while the thread pool is shutting down"

def incompleteGraph : String := "graph processing incomplete (cyclic reference?)"

/-- What happens in `processGraph`. -/
inductive GraphAction (α : Type) where
  /-- The next node is enqueued. -/
  | add (woken : Option Nat)
  /-- `pool.process()` is called. -/
  | process
  /-- A thread of the pool does something outside of `worker`. -/
  | pool (x : ThreadPool.PoolAction α (WorkerPoint α) String)
  /-- The item of a thread takes its next step; if that enqueues a node, `woken`
      is the thread that is notified. -/
  | work (t : Nat) (woken : Option Nat)
  /-- What follows `pool.process()`. -/
  | conclude

/-- A thread wakes up without having been notified. -/
def GraphAction.isWake {α : Type} : GraphAction α → Bool
  | .pool x => x.isWake
  | _ => false

namespace ProcessGraph

variable {α : Type} [LinearOrder α]

/-- The start of `processGraph`. -/
def initial (nodes : Finset α) (hardwareConcurrency : Nat) : ProcessGraph α where
  graph := { left := nodes, refs := fun _ => none, rrefs := fun _ => ∅ }
  locked := false
  pool := .new 0 hardwareConcurrency
  todo := inOrder nodes
  outcome := none
  log := []

/-- The pool takes a step. -/
def move (x : ThreadPool.PoolAction α (WorkerPoint α) String) (s : ProcessGraph α) :
    Option (ProcessGraph α) :=
  (s.pool.step x).map fun pool => { s with pool }

def note (event : NodeEvent α) (s : ProcessGraph α) : ProcessGraph α :=
  { s with log := s.log ++ [event] }

/-- The next step of `worker` in the thread `t`. -/
def work (getEdges : α → Finset α) (t : Nat) (woken : Option Nat) (node : α)
    (s : ProcessGraph α) : WorkerPoint α → Option (ProcessGraph α)
  | .start =>
      if s.locked then none
      else if (s.graph.refs node).isNone then s.move (.work t .getRefs)
      else s.move (.work t .doWork)
  | .getRefs =>
      if s.locked then none
      else
        let s := { s with graph := s.graph.register node ((getEdges node).erase node) }
        if s.graph.refsOf node = ∅ then s.move (.work t .doWork) else s.move (.finish t)
  | .doWork => (s.note (.called node)).move (.work t .processing)
  | .processing => (s.note (.returned node)).move (.work t .processed)
  | .processed =>
      if s.locked then none
      else { s with locked := true }.move (.work t (.retiring (inOrder (s.graph.rrefs node))))
  | .retiring (rref :: rrefs) =>
      (s.graph.retire node rref).bind fun graph =>
        if graph.refsOf rref = ∅ then
          -- the exception of `enqueue` ends the item, which gives up the lock
          if s.pool.quit then { s with graph, locked := false }.move (.throw t threadPoolShutDown)
          else
            ({ s with graph }.move (.enqueue rref woken)).bind fun s =>
              s.move (.work t (.retiring rrefs))
        else { s with graph }.move (.work t (.retiring rrefs))
  | .retiring [] => { s with graph := s.graph.leave node, locked := false }.move (.finish t)

/-- Take a step. -/
def step (getEdges : α → Finset α) (s : ProcessGraph α) :
    GraphAction α → Option (ProcessGraph α)
  | .add woken =>
      match s.todo with
      | node :: todo =>
          -- the loop stops when `enqueue` throws
          if s.pool.quit then some { s with todo := [] }
          else { s with todo }.move (.enqueue node woken)
      | [] => none
  | .process => if s.todo = [] then s.move .process else none
  | .pool x => if x.between then s.move x else none
  | .work t woken =>
      match s.pool.threads[t]? with
      | some (.running node point) => s.work getEdges t woken node point
      | _ => none
  | .conclude =>
      match s.pool.result with
      | some (.ok ()) =>
          if s.locked then none
          else
            let outcome := if s.graph.left = ∅ then .ok () else .error incompleteGraph
            { s with outcome := some outcome }.move .destroy
      | some (.error e) => { s with outcome := some (.error e) }.move .destroy
      | none => none

/-- Nothing happens unless a waiting thread wakes up by itself. -/
def Idle (getEdges : α → Finset α) (s : ProcessGraph α) : Prop :=
  ∀ x, x.isWake = false → s.step getEdges x = none

/-- `processGraph` as a system. -/
def system (nodes : Finset α) (getEdges : α → Finset α) (hardwareConcurrency : Nat) :
    System (ProcessGraph α) (GraphAction α) where
  init s := s = initial nodes hardwareConcurrency
  step := step getEdges

/-- The nodes that are in the hands of somebody, and where they are. -/
def tokens (s : ProcessGraph α) : List (α × WorkerPoint α) :=
  s.todo.map (fun node => (node, .start)) ++ s.pool.items

end ProcessGraph

/-- The graph that `getEdges` induces on the nodes. -/
def InducedEdge {α : Type} (nodes : Finset α) (getEdges : α → Finset α) (n d : α) : Prop :=
  n ∈ nodes ∧ d ∈ nodes ∧ d ∈ getEdges n

end NixStore
