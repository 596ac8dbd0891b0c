/-
  NixStore.Util.ProcessGraphRuns

  Whole runs of `processGraph`.

  A step of `processGraph` is a step of the pool, of a worker, or of both.  The
  pool moves the nodes from the queue to the threads and leaves the roster as
  it is; a worker takes a step of the roster.  As no item throws, the pool does
  not quit before nothing is in anybody's hands, so `enqueue` never fails.
-/

import NixStore.Util.NodeRoster
import NixStore.Util.ThreadPoolRuns
import Mathlib.Tactic.Ring

namespace NixStore

open OrderedSet

variable {α : Type} [LinearOrder α]

-- ============================================================================
-- Section 1: Nodes in hands
-- ============================================================================

/-- Nobody has a node twice, and the stages say who has which. -/
structure Tied (tokens : List (α × WorkerPoint α)) (stage : α → Option (WorkerPoint α)) :
    Prop where
  nodup : (tokens.map Prod.fst).Nodup
  mem : ∀ n p, (n, p) ∈ tokens ↔ stage n = some p

namespace Tied

variable {tokens tokens' rest : List (α × WorkerPoint α)} {stage : α → Option (WorkerPoint α)}
variable {n : α} {p p' : WorkerPoint α}

omit [LinearOrder α] in
theorem perm (h : Tied tokens stage) (hperm : tokens'.Perm tokens) : Tied tokens' stage where
  nodup := (hperm.map Prod.fst).nodup_iff.mpr h.nodup
  mem n p := hperm.mem_iff.trans (h.mem n p)

omit [LinearOrder α] in
theorem not_mem_rest (h : Tied tokens stage) (hold : tokens.Perm ((n, p) :: rest))
    (q : WorkerPoint α) : (n, q) ∉ rest := by
  have hnodup := (hold.map Prod.fst).nodup_iff.mp h.nodup
  rw [List.map_cons, List.nodup_cons] at hnodup
  exact fun hmem => hnodup.1 (List.mem_map.mpr ⟨(n, q), hmem, rfl⟩)

/-- A node is given back. -/
theorem remove (h : Tied tokens stage) (hold : tokens.Perm ((n, p) :: rest)) :
    Tied rest (Function.update stage n none) where
  nodup := by
    have hnodup := (hold.map Prod.fst).nodup_iff.mp h.nodup
    rw [List.map_cons, List.nodup_cons] at hnodup
    exact hnodup.2
  mem := by
    intro m q
    rw [Function.update_apply]
    split
    · next heq =>
        rw [heq]
        exact ⟨fun hmem => absurd hmem (h.not_mem_rest hold q), fun hnone => (by cases hnone)⟩
    · next hne =>
        rw [← h.mem m q, hold.mem_iff, List.mem_cons]
        refine (or_iff_right fun heq => hne ?_).symm
        exact congrArg Prod.fst heq

/-- A node that nobody has is handed out. -/
theorem add (h : Tied tokens stage) (hnone : stage n = none) (p : WorkerPoint α) :
    Tied ((n, p) :: tokens) (Function.update stage n (some p)) where
  nodup := by
    rw [List.map_cons, List.nodup_cons]
    refine ⟨fun hmem => ?_, h.nodup⟩
    obtain ⟨⟨m, q⟩, hmq, heq⟩ := List.mem_map.mp hmem
    rw [show m = n from heq, h.mem, hnone] at hmq
    cases hmq
  mem := by
    intro m q
    rw [Function.update_apply, List.mem_cons]
    split
    · next heq =>
        rw [heq, h.mem, hnone, Option.some.injEq]
        constructor
        · rintro (heq | hfalse)
          · exact (congrArg Prod.snd heq).symm
          · cases hfalse
        · rintro rfl
          exact Or.inl rfl
    · next hne =>
        rw [← h.mem m q]
        exact or_iff_right fun heq => hne (congrArg Prod.fst heq)

/-- Whoever has a node goes on. -/
theorem replace (h : Tied tokens stage) (hold : tokens.Perm ((n, p) :: rest))
    (hnew : tokens'.Perm ((n, p') :: rest)) :
    Tied tokens' (Function.update stage n (some p')) := by
  have hadd := (h.remove hold).add (Function.update_self ..) p'
  rw [Function.update_idem] at hadd
  exact hadd.perm hnew

end Tied

namespace ProcessGraph

open ThreadPool (PoolAction Kept)

variable {s s' : ProcessGraph α} {nodes : Finset α} {getEdges : α → Finset α}
variable {stage : α → Option (WorkerPoint α)} {t : Nat} {n : α} {p p' : WorkerPoint α}

-- ============================================================================
-- Section 2: The pool around the nodes
-- ============================================================================

omit [LinearOrder α] in
theorem move_eq_some {x : PoolAction α (WorkerPoint α) String} (h : s.move x = some s') :
    ∃ pool, s.pool.step x = some pool ∧ s' = { s with pool } := by
  obtain ⟨pool, hpool, rfl⟩ := Option.map_eq_some_iff.mp h
  exact ⟨pool, hpool, rfl⟩

/-- What holds of the pool: nothing has been thrown, and it is destroyed only
    when everything else is over. -/
structure Around (s : ProcessGraph α) : Prop where
  pool : s.pool.Inv
  calm : s.pool.threw = []
  adding : s.todo ≠ [] → s.pool.caller = .idle
  draining : s.pool.caller = .idle ∨ s.pool.draining = true
  destroying : s.pool.caller.destroying = true → s.outcome ≠ none

omit [LinearOrder α] in
theorem Around.kept (h : Around s) (hpool : s'.pool.Inv) (hkept : Kept s.pool s'.pool)
    (htodo : s'.todo ≠ [] → s.todo ≠ []) (houtcome : s'.outcome = s.outcome) : Around s' where
  pool := hpool
  calm := hkept.threw.trans h.calm
  adding := fun hne => hkept.idle.mpr (h.adding (htodo hne))
  draining := h.draining.imp hkept.idle.mpr hkept.draining.trans
  destroying := by
    rw [houtcome, hkept.destroying]
    exact h.destroying

omit [LinearOrder α] in
/-- The pool does not quit while there is something to do. -/
theorem Around.quit_eq_false (h : Around s) (hnone : s.outcome = none)
    (hmore : s.pool.draining = true → s.pool.pending = [] → s.pool.active ≠ 0) :
    s.pool.quit = false := by
  cases hquit : s.pool.quit with
  | false => rfl
  | true =>
      rcases h.pool.flags.why hquit with hexc | ⟨hdraining, hpending, hactive⟩ | hdestroying
      · obtain ⟨e, he⟩ := Option.ne_none_iff_exists'.mp hexc
        obtain ⟨w, hw⟩ := h.pool.ledger.blamed e he
        rw [h.calm] at hw
        cases hw
      · exact absurd hactive (hmore hdraining hpending)
      · exact absurd hnone (h.destroying hdestroying)

omit [LinearOrder α] in
theorem mem_tokens (hpc : s.pool.threads[t]? = some (.running n p)) : (n, p) ∈ s.tokens := by
  refine List.mem_append_right _ (List.mem_append_right _ ?_)
  exact List.mem_filterMap.mpr ⟨_, List.mem_of_getElem? hpc, rfl⟩

omit [LinearOrder α] in
theorem tokens_congr (htodo : s'.todo = s.todo) (hitems : s'.pool.items.Perm s.pool.items) :
    s'.tokens.Perm s.tokens := by
  unfold tokens
  rw [htodo]
  exact hitems.append_left _

-- ============================================================================
-- Section 3: What a run costs
-- ============================================================================

/-- The steps that `worker` still takes, for at most `bound` nodes. -/
def pointCost (bound : Nat) : WorkerPoint α → Nat
  | .start => bound + 5
  | .getRefs => bound + 4
  | .doWork => bound + 3
  | .processing => bound + 2
  | .processed => bound + 1
  | .retiring rrefs => rrefs.length

/-- The nodes that have not become ready yet. -/
def unready (g : Graph α) : Finset α := g.left.filter fun n => g.refs n ≠ some ∅

/-- A graph in which only entries of nodes change that were not ready. -/
theorem unready_subset {g g' : Graph α} (hleft : g'.left ⊆ g.left)
    (hrefs : ∀ a ∈ g'.left, g'.refs a = g.refs a ∨ a ∈ unready g) :
    unready g' ⊆ unready g := by
  intro a ha
  obtain ⟨haleft, hnot⟩ := Finset.mem_filter.mp ha
  rcases hrefs a haleft with hsame | hunready
  · rw [hsame] at hnot
    exact Finset.mem_filter.mpr ⟨hleft haleft, hnot⟩
  · exact hunready

/-- A node that waits for another is not ready. -/
theorem mem_unready {g : Graph α} {n m : α} (hleft : m ∈ g.left) (hwaits : n ∈ g.refsOf m) :
    m ∈ unready g := by
  refine Finset.mem_filter.mpr ⟨hleft, fun hempty => ?_⟩
  rw [Graph.refsOf_of_some hempty] at hwaits
  exact absurd hwaits (Finset.notMem_empty n)

theorem unready_register {g : Graph α} (hnone : g.refs n = none) (refs : Finset α) :
    unready (g.register n refs) ⊆ unready g := by
  have hleft := Graph.left_register n refs g
  refine unready_subset hleft.subset fun a ha => ?_
  rw [hleft] at ha
  by_cases heq : a = n
  · refine Or.inr (Finset.mem_filter.mpr ⟨ha, ?_⟩)
    rw [heq, hnone]
    exact (Option.some_ne_none _).symm
  · exact Or.inl (Graph.refs_register g heq)

theorem unready_retire {g g' : Graph α} {m : α} (hleft : m ∈ g.left)
    (hretire : g.retire n m = some g') : unready g' ⊆ unready g := by
  obtain ⟨hmem, rfl⟩ := Graph.retire_eq_some hretire
  refine unready_subset (Finset.Subset.refl _) fun a _ => ?_
  rw [Graph.refs_setRefs]
  split
  · next heq =>
      rw [heq]
      exact Or.inr (mem_unready hleft hmem)
  · exact Or.inl rfl

/-- A node that waits for nothing any more is ready from then on. -/
theorem card_unready_retire {g g' : Graph α} {m : α} (hleft : m ∈ g.left)
    (hretire : g.retire n m = some g') (hready : g'.refsOf m = ∅) :
    (unready g').card + 1 ≤ (unready g).card := by
  have hsub := unready_retire hleft hretire
  obtain ⟨hmem, rfl⟩ := Graph.retire_eq_some hretire
  refine Finset.card_lt_card ((Finset.ssubset_iff_of_subset hsub).mpr
    ⟨m, mem_unready hleft hmem, fun hm => ?_⟩)
  rw [Graph.refsOf_setRefs, if_pos rfl] at hready
  refine (Finset.mem_filter.mp hm).2 ?_
  rw [Graph.refs_setRefs, if_pos rfl, hready]

theorem unready_leave (n : α) (g : Graph α) : unready (g.leave n) ⊆ unready g := by
  refine unready_subset (Finset.erase_subset _ _) fun a ha => Or.inl ?_
  rw [Graph.refs_leave, if_neg (Finset.ne_of_mem_erase ha)]

/-- A bound on the steps that are still taken. -/
def cost (bound : Nat) (s : ProcessGraph α) : Nat :=
  s.pool.cost + (s.tokens.map fun x => pointCost bound x.2).sum + 8 * s.todo.length +
    (bound + 12) * (unready s.graph).card

theorem cost_initial (nodes : Finset α) (hardwareConcurrency : Nat) :
    (initial nodes hardwareConcurrency).cost nodes.card =
      10 + nodes.card * (2 * nodes.card + 25) := by
  have htokens : ((initial nodes hardwareConcurrency).tokens.map
      fun x => pointCost nodes.card x.2).sum = nodes.card * (nodes.card + 5) := by
    have hstart : (initial nodes hardwareConcurrency).tokens =
        (inOrder nodes).map fun n => (n, WorkerPoint.start) := List.append_nil _
    rw [hstart, List.map_map]
    show ((inOrder nodes).map fun _ => nodes.card + 5).sum = _
    rw [List.map_const', List.sum_replicate_nat, length_inOrder]
  have hunready : unready (initial nodes hardwareConcurrency).graph = nodes :=
    Finset.filter_true_of_mem fun n _ => (Option.some_ne_none _).symm
  unfold cost
  rw [htokens, hunready]
  show 10 + nodes.card * (nodes.card + 5) + 8 * (inOrder nodes).length +
    (nodes.card + 12) * nodes.card = _
  rw [length_inOrder]
  ring

-- ============================================================================
-- Section 4: What a step does
-- ============================================================================

/-- What the nodes look like, whatever the pool does. -/
def roster (s : ProcessGraph α) (stage : α → Option (WorkerPoint α)) : Roster α where
  graph := s.graph
  locked := s.locked
  stage := stage
  log := s.log

/-- What holds on every schedule. -/
structure Inv (nodes : Finset α) (getEdges : α → Finset α)
    (stage : α → Option (WorkerPoint α)) (s : ProcessGraph α) : Prop where
  around : Around s
  roster : (s.roster stage).Inv nodes getEdges
  tied : Tied s.tokens stage
  ended : ∀ o, s.outcome = some o → s.tokens = [] ∧
    o = if s.graph.left = ∅ then .ok () else .error incompleteGraph

/-- As long as somebody has a node, it is not over. -/
theorem Inv.outcome_eq_none (h : Inv nodes getEdges stage s) (hne : s.tokens ≠ []) :
    s.outcome = none := by
  cases houtcome : s.outcome with
  | none => rfl
  | some o => exact absurd (h.ended o houtcome).1 hne

theorem Inv.outcome_of_running (h : Inv nodes getEdges stage s)
    (hpc : s.pool.threads[t]? = some (.running n p)) : s.outcome = none :=
  h.outcome_eq_none (List.ne_nil_of_mem (mem_tokens hpc))

/-- While an item is executed, `enqueue` does not throw. -/
theorem Inv.quit_of_running (h : Inv nodes getEdges stage s)
    (hpc : s.pool.threads[t]? = some (.running n p)) : s.pool.quit = false :=
  h.around.quit_eq_false (h.outcome_of_running hpc)
    fun _ _ => Nat.ne_of_gt (h.around.pool.ledger.active_pos hpc rfl)

/-- Nor does it before `process()` is called. -/
theorem Inv.quit_of_idle (h : Inv nodes getEdges stage s) (hnone : s.outcome = none)
    (hidle : s.pool.caller = .idle) : s.pool.quit = false := by
  refine h.around.quit_eq_false hnone fun hdraining => ?_
  rw [(h.around.pool.owner.idle hidle).1] at hdraining
  cases hdraining

/-- A worker has taken a step. -/
theorem Inv.advance (h : Inv nodes getEdges stage s) {stage' : α → Option (WorkerPoint α)}
    (hstep : Roster.Step getEdges (s.roster stage) (s'.roster stage')) (haround : Around s')
    (htied : Tied s'.tokens stage') (hnone : s'.outcome = none) :
    Inv nodes getEdges stage' s' where
  around := haround
  roster := Roster.inv_step h.roster hstep
  tied := htied
  ended := by
    rw [hnone]
    exact fun o ho => (by cases ho)

/-- A worker goes on with its node. -/
theorem Inv.goOn (h : Inv nodes getEdges stage s)
    (hpc : s.pool.threads[t]? = some (.running n p)) {s₁ : ProcessGraph α}
    (hmove : s₁.move (.work t p') = some s') (hpool : s₁.pool = s.pool)
    (htodo : s₁.todo = s.todo) (houtcome : s₁.outcome = s.outcome)
    (hstep : Roster.Step getEdges (s.roster stage)
      (s₁.roster (Function.update stage n (some p'))))
    (hunready : unready s₁.graph ⊆ unready s.graph) {bound : Nat}
    (hcost : pointCost bound p' + 1 ≤ pointCost bound p) :
    Inv nodes getEdges (Function.update stage n (some p')) s' ∧
      s'.cost bound + 1 ≤ s.cost bound := by
  obtain ⟨pool, hpoolstep, rfl⟩ := move_eq_some hmove
  rw [hpool] at hpoolstep
  obtain ⟨w, point, rest, hw, hold, hnew⟩ := ThreadPool.items_step hpoolstep
  rw [hpc] at hw
  cases hw
  have hbefore : s.tokens.Perm ((n, p) ::
      (s.todo.map (fun node => (node, WorkerPoint.start)) ++ rest)) :=
    (hold.append_left _).trans List.perm_middle
  have hafter : ({ s₁ with pool } : ProcessGraph α).tokens.Perm ((n, p') ::
      (s.todo.map (fun node => (node, WorkerPoint.start)) ++ rest)) := by
    unfold tokens
    rw [htodo]
    exact (hnew.append_left _).trans List.perm_middle
  have hkept := ThreadPool.kept_step rfl hpoolstep
  have hnone : s₁.outcome = none := houtcome.trans (h.outcome_of_running hpc)
  refine ⟨h.advance hstep (h.around.kept (ThreadPool.inv_step h.around.pool hpoolstep) hkept ?_ ?_)
    (h.tied.replace hbefore hafter) hnone, ?_⟩
  · show s₁.todo ≠ [] → s.todo ≠ []
    rw [htodo]
    exact id
  · exact houtcome
  · have hpaid : pool.cost + 0 ≤ s.pool.cost + 0 :=
      ThreadPool.cost_of_enqueued h.around.pool hpoolstep
    have hsum := (hbefore.map fun x => pointCost bound x.2).sum_eq
    have hsum' := (hafter.map fun x => pointCost bound x.2).sum_eq
    rw [List.map_cons, List.sum_cons] at hsum hsum'
    have hcard := Nat.mul_le_mul_left (bound + 12) (Finset.card_le_card hunready)
    unfold cost
    rw [hsum, hsum']
    show pool.cost + _ + 8 * s₁.todo.length + _ + 1 ≤ _
    rw [htodo]
    dsimp only at hsum hsum' ⊢
    omega

/-- A worker is done with its node. -/
theorem Inv.finish (h : Inv nodes getEdges stage s)
    (hpc : s.pool.threads[t]? = some (.running n p)) {s₁ : ProcessGraph α}
    (hmove : s₁.move (.finish t) = some s') (hpool : s₁.pool = s.pool)
    (htodo : s₁.todo = s.todo) (houtcome : s₁.outcome = s.outcome)
    (hstep : Roster.Step getEdges (s.roster stage) (s₁.roster (Function.update stage n none)))
    (hunready : unready s₁.graph ⊆ unready s.graph) {bound : Nat} :
    Inv nodes getEdges (Function.update stage n none) s' ∧
      s'.cost bound + 1 ≤ s.cost bound := by
  obtain ⟨pool, hpoolstep, rfl⟩ := move_eq_some hmove
  rw [hpool] at hpoolstep
  obtain ⟨w, point, hw, hold⟩ := ThreadPool.items_step hpoolstep
  rw [hpc] at hw
  cases hw
  have hbefore : s.tokens.Perm ((n, p) :: ({ s₁ with pool } : ProcessGraph α).tokens) := by
    unfold tokens
    rw [htodo]
    exact (hold.append_left _).trans List.perm_middle
  have hkept := ThreadPool.kept_step rfl hpoolstep
  have hnone : s₁.outcome = none := houtcome.trans (h.outcome_of_running hpc)
  refine ⟨h.advance hstep (h.around.kept (ThreadPool.inv_step h.around.pool hpoolstep) hkept ?_ ?_)
    (h.tied.remove hbefore) hnone, ?_⟩
  · show s₁.todo ≠ [] → s.todo ≠ []
    rw [htodo]
    exact id
  · exact houtcome
  · have hpaid : pool.cost + 1 ≤ s.pool.cost + 0 :=
      ThreadPool.cost_of_enqueued h.around.pool hpoolstep
    have hsum := (hbefore.map fun x => pointCost bound x.2).sum_eq
    rw [List.map_cons, List.sum_cons] at hsum
    have hcard := Nat.mul_le_mul_left (bound + 12) (Finset.card_le_card hunready)
    unfold cost
    rw [hsum]
    show pool.cost + _ + 8 * s₁.todo.length + _ + 1 ≤ _
    rw [htodo]
    dsimp only
    omega

/-- A node becomes ready, and is enqueued while another one retires. -/
theorem Inv.release (h : Inv nodes getEdges stage s)
    {m : α} {rrefs : List α} (hpc : s.pool.threads[t]? = some (.running n (.retiring (m :: rrefs))))
    {graph : Graph α} (hgraph : s.graph.retire n m = some graph) (hready : graph.refsOf m = ∅)
    {woken : Option Nat} {s₁ : ProcessGraph α}
    (henqueue : ({ s with graph } : ProcessGraph α).move (.enqueue m woken) = some s₁)
    (hmove : s₁.move (.work t (.retiring rrefs)) = some s') {bound : Nat} :
    Inv nodes getEdges
        (Function.update (Function.update stage m (some .start)) n (some (.retiring rrefs))) s' ∧
      s'.cost bound + 1 ≤ s.cost bound := by
  have hquit := h.quit_of_running hpc
  have hnone := h.outcome_of_running hpc
  have hstage : stage n = some (.retiring (m :: rrefs)) := (h.tied.mem _ _).mp (mem_tokens hpc)
  have hmn : n ∈ s.graph.refsOf m := h.roster.waiting.mem_retiring hstage
  obtain ⟨pool₁, hpool₁, rfl⟩ := move_eq_some henqueue
  obtain ⟨pool, hpool, rfl⟩ := move_eq_some hmove
  have hinv₁ := ThreadPool.inv_step h.around.pool hpool₁
  have hpc₁ := ThreadPool.running_enqueue hpc hpool₁
  -- the nodes in hands, before, in between and after
  have hitems := ThreadPool.items_step hpool₁ hquit
  obtain ⟨w, point, rest, hw, hold, hnew⟩ := ThreadPool.items_step hpool
  rw [hpc₁] at hw
  cases hw
  have hbetween : ({ s with graph, pool := pool₁ } : ProcessGraph α).tokens.Perm
      ((m, .start) :: s.tokens) := (hitems.append_left _).trans List.perm_middle
  have hbefore : ({ s with graph, pool := pool₁ } : ProcessGraph α).tokens.Perm
      ((n, .retiring (m :: rrefs)) ::
        (s.todo.map (fun node => (node, WorkerPoint.start)) ++ rest)) :=
    (hold.append_left _).trans List.perm_middle
  have hafter : ({ s with graph, pool } : ProcessGraph α).tokens.Perm
      ((n, .retiring rrefs) :: (s.todo.map (fun node => (node, WorkerPoint.start)) ++ rest)) :=
    (hnew.append_left _).trans List.perm_middle
  have hadded := (h.tied.add (h.roster.waiting.stage_eq_none hmn) .start).perm hbetween
  -- the pool
  have hkept := (ThreadPool.kept_step rfl hpool₁).trans (ThreadPool.kept_step rfl hpool)
  have haround : Around ({ s with graph, pool } : ProcessGraph α) :=
    h.around.kept (ThreadPool.inv_step hinv₁ hpool) hkept id rfl
  have hstep : Roster.Step getEdges (s.roster stage) (({ s with graph, pool } :
      ProcessGraph α).roster (Function.update (Function.update stage m (some .start)) n
        (some (.retiring rrefs)))) := by
    have hretire : Roster.Step getEdges (s.roster stage) _ := .retire hstage hgraph
    rw [if_pos hready] at hretire
    exact hretire
  refine ⟨h.advance hstep haround (hadded.replace hbefore hafter) hnone, ?_⟩
  have hpaid₁ : pool₁.cost ≤ s.pool.cost + 7 :=
    ThreadPool.cost_of_enqueued h.around.pool hpool₁
  have hpaid : pool.cost + 0 ≤ pool₁.cost + 0 := ThreadPool.cost_of_enqueued hinv₁ hpool
  have hsum₁ := (hbetween.map fun x => pointCost bound x.2).sum_eq
  have hsum := (hbefore.map fun x => pointCost bound x.2).sum_eq
  have hsum' := (hafter.map fun x => pointCost bound x.2).sum_eq
  rw [List.map_cons, List.sum_cons] at hsum₁ hsum hsum'
  have hcard : (unready graph).card + 1 ≤ (unready s.graph).card :=
    card_unready_retire (h.roster.waiting.mem_left hmn) hgraph hready
  have hcost : (bound + 12) * (unready graph).card + (bound + 12) ≤
      (bound + 12) * (unready s.graph).card := by
    have hmul := Nat.mul_le_mul_left (bound + 12) hcard
    rw [Nat.mul_add, Nat.mul_one] at hmul
    exact hmul
  unfold cost
  dsimp only [pointCost, List.length_cons] at hsum₁ hsum hsum' ⊢
  omega

/-- A step of `worker`. -/
theorem Inv.work (h : Inv nodes getEdges stage s)
    (hpc : s.pool.threads[t]? = some (.running n p)) {woken : Option Nat}
    (hwork : s.work getEdges t woken n p = some s') :
    ∃ stage', Inv nodes getEdges stage' s' ∧ s'.cost nodes.card + 1 ≤ s.cost nodes.card := by
  have hstage : stage n = some p := (h.tied.mem _ _).mp (mem_tokens hpc)
  obtain ⟨hleft, hfits⟩ := h.roster.waiting.held n p hstage
  cases p with
  | start =>
      obtain ⟨hlocked, hwork⟩ := Option.ite_none_left_eq_some.mp hwork
      have hfree : s.locked = false := Bool.eq_false_iff.mpr hlocked
      have hlook : Roster.Step getEdges (s.roster stage) _ := .look hstage hfree
      split at hwork
      · next hnone =>
          rw [if_pos (show ((s.roster stage).graph.refs n).isNone = true from hnone)] at hlook
          exact ⟨_, h.goOn hpc hwork rfl rfl rfl hlook (Finset.Subset.refl _) (Nat.le_refl _)⟩
      · next hsome =>
          rw [if_neg (show ¬ ((s.roster stage).graph.refs n).isNone = true from hsome)] at hlook
          exact ⟨_, h.goOn hpc hwork rfl rfl rfl hlook (Finset.Subset.refl _) (Nat.le_succ _)⟩
  | getRefs =>
      obtain ⟨hlocked, hwork⟩ := Option.ite_none_left_eq_some.mp hwork
      have hfree : s.locked = false := Bool.eq_false_iff.mpr hlocked
      have hregister := Roster.Step.register (r := s.roster stage) hstage hfree
        (show _ = s.graph.register n ((getEdges n).erase n) from rfl)
      have hunready := unready_register hfits ((getEdges n).erase n)
      dsimp only at hwork
      split at hwork
      · next hempty =>
          rw [if_pos hempty] at hregister
          exact ⟨_, h.goOn hpc hwork rfl rfl rfl hregister hunready (Nat.le_refl _)⟩
      · next hne =>
          rw [if_neg hne] at hregister
          exact ⟨_, h.finish hpc hwork rfl rfl rfl hregister hunready⟩
  | doWork =>
      have hmove : (s.note (.called n)).move (.work t .processing) = some s' := hwork
      have hcall : Roster.Step getEdges (s.roster stage) _ := .call hstage
      exact ⟨_, h.goOn hpc hmove rfl rfl rfl hcall (Finset.Subset.refl _) (Nat.le_refl _)⟩
  | processing =>
      have hmove : (s.note (.returned n)).move (.work t .processed) = some s' := hwork
      have hret : Roster.Step getEdges (s.roster stage) _ := .ret hstage
      exact ⟨_, h.goOn hpc hmove rfl rfl rfl hret (Finset.Subset.refl _) (Nat.le_refl _)⟩
  | processed =>
      obtain ⟨hlocked, hwork⟩ := Option.ite_none_left_eq_some.mp hwork
      have hfree : s.locked = false := Bool.eq_false_iff.mpr hlocked
      have hlock : Roster.Step getEdges (s.roster stage) _ := .lock hstage hfree
      refine ⟨_, h.goOn hpc hwork rfl rfl rfl hlock (Finset.Subset.refl _) ?_⟩
      -- only nodes that are left wait
      refine Nat.succ_le_succ ((length_inOrder _).le.trans (Finset.card_le_card fun a ha => ?_))
      have hwaits := (h.roster.waiting.rrefs n (h.roster.waiting.not_retiring hfree n) a).mp ha
      exact h.roster.waiting.left_nodes (h.roster.waiting.mem_left hwaits)
  | retiring rrefs =>
      cases rrefs with
      | nil =>
          have hleave : Roster.Step getEdges (s.roster stage) _ := .leave hstage
          have hmove : ({ s with graph := s.graph.leave n, locked := false } :
            ProcessGraph α).move (.finish t) = some s' := hwork
          exact ⟨_, h.finish hpc hmove rfl rfl rfl hleave (unready_leave n s.graph)⟩
      | cons m rrefs =>
          obtain ⟨graph, hgraph, hwork⟩ := Option.bind_eq_some_iff.mp hwork
          split at hwork
          · next hready =>
              rw [h.quit_of_running hpc, if_neg Bool.false_ne_true] at hwork
              obtain ⟨s₁, henqueue, hmove⟩ := Option.bind_eq_some_iff.mp hwork
              exact ⟨_, h.release hpc hgraph hready henqueue hmove⟩
          · next hwaits =>
              have hretire : Roster.Step getEdges (s.roster stage) _ := .retire hstage hgraph
              have hmn : n ∈ s.graph.refsOf m := h.roster.waiting.mem_retiring hstage
              rw [if_neg hwaits] at hretire
              have hstep : Roster.Step getEdges (s.roster stage) (({ s with graph } :
                  ProcessGraph α).roster (Function.update (Function.update stage m (stage m)) n
                    (some (.retiring rrefs)))) := hretire
              rw [Function.update_eq_self] at hstep
              exact ⟨_, h.goOn hpc hwork rfl rfl rfl hstep
                (unready_retire (h.roster.waiting.mem_left hmn) hgraph) (Nat.le_refl _)⟩

/-- Nothing happens to the nodes. -/
theorem Inv.stutter (h : Inv nodes getEdges stage s) (hroster : s'.roster stage = s.roster stage)
    (htokens : s'.tokens.Perm s.tokens) (haround : Around s')
    (hended : ∀ o, s'.outcome = some o → s.tokens = [] ∧
      o = if s.graph.left = ∅ then .ok () else .error incompleteGraph) :
    Inv nodes getEdges stage s' where
  around := haround
  roster := by
    rw [hroster]
    exact h.roster
  tied := h.tied.perm htokens
  ended := by
    intro o ho
    obtain ⟨hnil, heq⟩ := hended o ho
    rw [hnil] at htokens
    have hgraph : s'.graph = s.graph := congrArg Roster.graph hroster
    rw [hgraph]
    exact ⟨htokens.eq_nil, heq⟩

/-- The next node is enqueued. -/
theorem Inv.add (h : Inv nodes getEdges stage s) {todo : List α} (htodo : s.todo = n :: todo)
    {woken : Option Nat}
    (hmove : ({ s with todo } : ProcessGraph α).move (.enqueue n woken) = some s') (bound : Nat) :
    Inv nodes getEdges stage s' ∧ s'.cost bound + 1 ≤ s.cost bound := by
  have hidle := h.around.adding (by rw [htodo]; exact List.cons_ne_nil n todo)
  have hmem : (n, .start) ∈ s.tokens := by
    refine List.mem_append_left _ ?_
    rw [htodo]
    exact List.mem_cons_self
  have hnone := h.outcome_eq_none (List.ne_nil_of_mem hmem)
  obtain ⟨pool, hpool, rfl⟩ := move_eq_some hmove
  have hitems : pool.items.Perm ((n, default) :: s.pool.items) :=
    ThreadPool.items_step hpool (h.quit_of_idle hnone hidle)
  have htokens : ({ s with todo, pool } : ProcessGraph α).tokens.Perm s.tokens := by
    unfold tokens
    rw [htodo]
    exact (hitems.append_left _).trans List.perm_middle
  refine ⟨h.stutter rfl htokens (h.around.kept (ThreadPool.inv_step h.around.pool hpool)
    (ThreadPool.kept_step rfl hpool) (fun _ => ?_) rfl) fun o ho => ?_, ?_⟩
  · rw [htodo]
    exact List.cons_ne_nil n todo
  · rw [show s.outcome = some o from ho] at hnone
    cases hnone
  · have hpaid : pool.cost ≤ s.pool.cost + 7 :=
      ThreadPool.cost_of_enqueued h.around.pool hpool
    have hsum := (htokens.map fun x => pointCost bound x.2).sum_eq
    unfold cost
    rw [hsum, htodo, List.length_cons]
    dsimp only
    omega

/-- The owner calls `process()`. -/
theorem Inv.process (h : Inv nodes getEdges stage s) (htodo : s.todo = [])
    (hmove : s.move .process = some s') (bound : Nat) :
    Inv nodes getEdges stage s' ∧ s'.cost bound + 1 ≤ s.cost bound := by
  obtain ⟨pool, hpool, rfl⟩ := move_eq_some hmove
  have hitems : pool.items.Perm s.pool.items := ThreadPool.items_step hpool
  have htokens : ({ s with pool } : ProcessGraph α).tokens.Perm s.tokens :=
    tokens_congr rfl hitems
  have hpaid : pool.cost + 1 ≤ s.pool.cost + 0 :=
    ThreadPool.cost_of_enqueued h.around.pool hpool
  have hsum := (htokens.map fun x => pointCost bound x.2).sum_eq
  have hinv := ThreadPool.inv_step h.around.pool hpool
  obtain ⟨-, heq⟩ := ThreadPool.step_cases hpool
  have haround : Around ({ s with pool } : ProcessGraph α) := by
    refine ⟨hinv, ?_, fun hne => absurd htodo hne, Or.inr ?_, fun hd => ?_⟩
    · rw [heq]
      exact h.around.calm
    · rw [heq]
    · rw [heq] at hd
      cases hd
  refine ⟨h.stutter rfl htokens haround h.ended, ?_⟩
  unfold cost
  rw [hsum]
  dsimp only
  omega

/-- The threads of the pool go on outside of the items. -/
theorem Inv.between (h : Inv nodes getEdges stage s)
    {x : PoolAction α (WorkerPoint α) String} (hx : x.between = true)
    (hmove : s.move x = some s') (bound : Nat) :
    Inv nodes getEdges stage s' ∧ s'.cost bound + x.paid.toNat ≤ s.cost bound + x.isWake.toNat := by
  obtain ⟨pool, hpool, rfl⟩ := move_eq_some hmove
  have hstep := ThreadPool.items_step hpool
  have hprice := ThreadPool.cost_of_enqueued h.around.pool hpool
  have hitems : pool.items.Perm s.pool.items := by
    cases x <;> first | exact hstep | cases hx
  have hpaid : pool.cost + x.paid.toNat ≤ s.pool.cost + x.isWake.toNat := by
    cases x <;> first | exact hprice | cases hx
  have hquiet : x.loud = false := by
    cases x <;> first | rfl | cases hx
  have htokens : ({ s with pool } : ProcessGraph α).tokens.Perm s.tokens :=
    tokens_congr rfl hitems
  have hsum := (htokens.map fun x => pointCost bound x.2).sum_eq
  refine ⟨h.stutter rfl htokens (h.around.kept (ThreadPool.inv_step h.around.pool hpool)
    (ThreadPool.kept_step hquiet hpool) id rfl) h.ended, ?_⟩
  unfold cost
  rw [hsum]
  dsimp only
  omega

/-- `process()` does not throw, and when it is over no node is in anybody's
    hands. -/
theorem Inv.concluded (h : Inv nodes getEdges stage s) {r : Except String Unit}
    (hresult : s.pool.result = some r) : r = .ok () ∧ s.todo = [] ∧ s.tokens = [] := by
  cases r with
  | error e =>
      have hexc := h.around.pool.owner.failing e (Or.inr hresult)
      obtain ⟨w, hw⟩ := h.around.pool.ledger.blamed e hexc
      rw [h.around.calm] at hw
      cases hw
  | ok u =>
      have htodo : s.todo = [] := by
        by_contra hne
        rw [(h.around.pool.owner.idle (h.around.adding hne)).2] at hresult
        cases hresult
      obtain ⟨-, -, hjobs⟩ := h.around.pool.completed_of_ok hresult
      obtain ⟨-, -, hpending, -⟩ := h.around.pool.flags.calm hresult
      refine ⟨rfl, htodo, ?_⟩
      unfold tokens ThreadPool.items
      rw [htodo, hpending, hjobs]
      rfl

/-- What follows `process()`. -/
theorem Inv.conclude (h : Inv nodes getEdges stage s) {r : Except String Unit}
    (hresult : s.pool.result = some r)
    (hmove : ({ s with outcome := some (if s.graph.left = ∅ then .ok ()
      else .error incompleteGraph) } : ProcessGraph α).move .destroy = some s') (bound : Nat) :
    Inv nodes getEdges stage s' ∧ s'.cost bound + 1 ≤ s.cost bound := by
  obtain ⟨-, htodo, hnil⟩ := h.concluded hresult
  obtain ⟨pool, hpool, rfl⟩ := move_eq_some hmove
  have hitems : pool.items.Perm s.pool.items := ThreadPool.items_step hpool
  have htokens : ({ s with
      pool
      outcome := some (if s.graph.left = ∅ then .ok () else .error incompleteGraph) } :
      ProcessGraph α).tokens.Perm s.tokens := tokens_congr rfl hitems
  have hpaid : pool.cost + 1 ≤ s.pool.cost + 0 :=
    ThreadPool.cost_of_enqueued h.around.pool hpool
  have hsum := (htokens.map fun x => pointCost bound x.2).sum_eq
  have hinv := ThreadPool.inv_step h.around.pool hpool
  have hdraining : s.pool.draining = true := by
    refine h.around.draining.resolve_left fun hidle => ?_
    rw [(h.around.pool.owner.idle hidle).2] at hresult
    cases hresult
  obtain ⟨-, heq⟩ := ThreadPool.step_cases hpool
  refine ⟨h.stutter rfl htokens ⟨hinv, ?_, fun hne => absurd htodo hne, Or.inr ?_,
    fun _ => Option.some_ne_none _⟩ fun o ho => ?_, ?_⟩
  · rw [heq]
    exact h.around.calm
  · rw [heq]
    exact hdraining
  · exact ⟨hnil, (Option.some.inj ho).symm⟩
  · unfold cost
    rw [hsum]
    dsimp only
    omega

/-- Each step keeps the invariant, and is paid for. -/
theorem inv_step (h : Inv nodes getEdges stage s) {x : GraphAction α}
    (hstep : s.step getEdges x = some s') :
    ∃ stage', Inv nodes getEdges stage' s' ∧
      s'.cost nodes.card + (!x.isWake).toNat ≤ s.cost nodes.card + x.isWake.toNat := by
  cases x with
  | add woken =>
      simp only [step] at hstep
      split at hstep
      · next node todo htodo =>
          have hidle := h.around.adding (by rw [htodo]; exact List.cons_ne_nil node todo)
          have hne : s.tokens ≠ [] := by
            unfold tokens
            rw [htodo]
            exact List.cons_ne_nil _ _
          rw [h.quit_of_idle (h.outcome_eq_none hne) hidle, if_neg Bool.false_ne_true] at hstep
          exact ⟨stage, h.add htodo hstep nodes.card⟩
      · cases hstep
  | process =>
      obtain ⟨htodo, hmove⟩ := Option.ite_none_right_eq_some.mp hstep
      exact ⟨stage, h.process htodo hmove nodes.card⟩
  | pool x =>
      obtain ⟨hx, hmove⟩ := Option.ite_none_right_eq_some.mp hstep
      obtain ⟨hinv, hcost⟩ := h.between hx hmove nodes.card
      have hpaid : x.paid = !x.isWake := by
        cases x <;> first | rfl | cases hx
      rw [hpaid] at hcost
      exact ⟨stage, hinv, hcost⟩
  | work t woken =>
      simp only [step] at hstep
      split at hstep
      · next node point hpc => exact h.work hpc hstep
      · cases hstep
  | conclude =>
      simp only [step] at hstep
      split at hstep
      · next hresult =>
          obtain ⟨-, hmove⟩ := Option.ite_none_left_eq_some.mp hstep
          exact ⟨stage, h.conclude hresult hmove nodes.card⟩
      · next e hresult => cases (h.concluded hresult).1
      · cases hstep

theorem inv_initial (nodes : Finset α) (getEdges : α → Finset α) (hardwareConcurrency : Nat) :
    Inv nodes getEdges (fun n => if n ∈ nodes then some .start else none)
      (initial nodes hardwareConcurrency) where
  around := ⟨ThreadPool.inv_new _ _, rfl, fun _ => rfl, Or.inl rfl, fun h => (by cases h)⟩
  roster := Roster.inv_initial nodes getEdges hardwareConcurrency
  tied := by
    have htokens : (initial nodes hardwareConcurrency).tokens =
        (inOrder nodes).map fun n => (n, .start) := List.append_nil _
    rw [htokens]
    refine ⟨?_, fun n p => ?_⟩
    · rw [List.map_map]
      exact (List.map_id _).symm ▸ nodup_inOrder nodes
    · rw [List.mem_map]
      split
      · next hn =>
          constructor
          · rintro ⟨m, -, heq⟩
            exact congrArg some (congrArg Prod.snd heq)
          · intro heq
            exact ⟨n, mem_inOrder.mpr hn, congrArg (n, ·) (Option.some.inj heq)⟩
      · next hn =>
          refine iff_of_false ?_ fun heq => (by cases heq)
          rintro ⟨m, hm, heq⟩
          have hmn : m = n := congrArg Prod.fst heq
          rw [hmn] at hm
          exact hn (mem_inOrder.mp hm)
  ended := fun _ ho => (by cases ho)

-- ============================================================================
-- Section 5: Nothing is left undone
-- ============================================================================

omit [LinearOrder α] in
/-- A node that is past its start is executed by some thread. -/
theorem exists_thread (hmem : (n, p) ∈ s.tokens) (hp : p ≠ .start) :
    ∃ t : Nat, s.pool.threads[t]? = some (.running n p) := by
  have hstart : ∀ l : List α, (n, p) ∉ l.map fun node => (node, WorkerPoint.start) := by
    intro l hl
    obtain ⟨m, -, heq⟩ := List.mem_map.mp hl
    exact hp (congrArg Prod.snd heq).symm
  rcases List.mem_append.mp hmem with htodo | hitems
  · exact absurd htodo (hstart _)
  · rcases List.mem_append.mp hitems with hpending | hjobs
    · exact absurd hpending (hstart _)
    · obtain ⟨pc, hpc, hjob⟩ := List.mem_filterMap.mp hjobs
      obtain ⟨t, ht⟩ := List.mem_iff_getElem?.mp hpc
      refine ⟨t, ?_⟩
      cases pc <;> cases hjob
      exact ht

omit [LinearOrder α] in
theorem isSome_work (hpc : s.pool.threads[t]? = some (.running n p)) (p' : WorkerPoint α) :
    (s.move (.work t p')).isSome = true := by
  unfold move
  simp only [ThreadPool.step, hpc, Option.map_some, Option.isSome_some]

omit [LinearOrder α] in
theorem isSome_finish (hpc : s.pool.threads[t]? = some (.running n p)) :
    (s.move (.finish t)).isSome = true := by
  unfold move
  simp only [ThreadPool.step, hpc, Option.map_some, Option.isSome_some]

omit [LinearOrder α] in
/-- A node can be enqueued as long as the pool does not quit. -/
theorem exists_enqueue (hquit : s.pool.quit = false) (n : α) :
    ∃ woken s', s.move (.enqueue n woken) = some s' := by
  obtain ⟨woken, pool, hnotify⟩ := ThreadPool.exists_notifyOne (s.pool.push n)
  refine ⟨woken, { s with pool }, ?_⟩
  unfold move
  simp only [ThreadPool.step, ThreadPool.enqueue, hquit, Bool.false_eq_true, if_false, hnotify,
    Option.map_some]

/-- An item goes on if the lock is free, or if it has the lock. -/
theorem Inv.work_goes (h : Inv nodes getEdges stage s)
    (hpc : s.pool.threads[t]? = some (.running n p))
    (hlock : s.locked = false ∨ Roster.isRetiring p = true) :
    ∃ woken, (s.work getEdges t woken n p).isSome = true := by
  have hstage : stage n = some p := (h.tied.mem _ _).mp (mem_tokens hpc)
  cases p with
  | start =>
      refine ⟨none, ?_⟩
      have hfree := hlock.resolve_right Bool.false_ne_true
      simp only [ProcessGraph.work, hfree, Bool.false_eq_true, if_false]
      split <;> exact isSome_work hpc _
  | getRefs =>
      refine ⟨none, ?_⟩
      have hfree := hlock.resolve_right Bool.false_ne_true
      simp only [ProcessGraph.work, hfree, Bool.false_eq_true, if_false]
      split
      · exact isSome_work (s := { s with graph := _, locked := false }) hpc _
      · exact isSome_finish (s := { s with graph := _, locked := false }) hpc
  | doWork => exact ⟨none, isSome_work (s := s.note _) hpc _⟩
  | processing => exact ⟨none, isSome_work (s := s.note _) hpc _⟩
  | processed =>
      refine ⟨none, ?_⟩
      have hfree := hlock.resolve_right Bool.false_ne_true
      simp only [ProcessGraph.work, hfree, Bool.false_eq_true, if_false]
      exact isSome_work (s := { s with locked := true }) hpc _
  | retiring rrefs =>
      cases rrefs with
      | nil => exact ⟨none, isSome_finish (s := { s with graph := _, locked := false }) hpc⟩
      | cons m rrefs =>
          have hmn : n ∈ s.graph.refsOf m := h.roster.waiting.mem_retiring hstage
          simp only [ProcessGraph.work, Graph.retire_of_mem hmn, Option.bind_some,
            h.quit_of_running hpc, Bool.false_eq_true, if_false]
          split
          · obtain ⟨woken, s₁, hs₁⟩ := exists_enqueue (s := { s with
              graph := s.graph.setRefs m ((s.graph.refsOf m).erase n) })
              (h.quit_of_running hpc) m
            refine ⟨woken, ?_⟩
            rw [hs₁, Option.bind_some]
            obtain ⟨pool, hpool, rfl⟩ := move_eq_some hs₁
            have hpc' := ThreadPool.running_enqueue hpc hpool
            exact isSome_work (s := { s with graph := _, pool }) hpc' _
          · exact ⟨none, isSome_work (s := { s with
              graph := s.graph.setRefs m ((s.graph.refsOf m).erase n) }) hpc _⟩

/-- While an item is executed, some item goes on. -/
theorem Inv.some_work_goes (h : Inv nodes getEdges stage s)
    (hpc : s.pool.threads[t]? = some (.running n p)) :
    ∃ t woken, (s.step getEdges (.work t woken)).isSome = true := by
  cases hlocked : s.locked with
  | false =>
      obtain ⟨woken, hgoes⟩ := h.work_goes hpc (Or.inl hlocked)
      refine ⟨t, woken, ?_⟩
      simp only [step, hpc]
      exact hgoes
  | true =>
      obtain ⟨d, l, hd, -⟩ := h.roster.waiting.locked hlocked
      obtain ⟨t', hpc'⟩ := exists_thread ((h.tied.mem d _).mpr hd) fun heq => (by cases heq)
      obtain ⟨woken, hgoes⟩ := h.work_goes hpc' (Or.inr rfl)
      refine ⟨t', woken, ?_⟩
      simp only [step, hpc']
      exact hgoes

/-- Nor is the owner stuck in a call of the pool. -/
theorem Inv.stuck_in_call (h : Inv nodes getEdges stage s) {P : Prop}
    (hstuck : ∀ {x}, GraphAction.isWake x = false → (s.step getEdges x).isSome = true → P)
    (hcall : s.pool.caller.inCall = true) : P := by
  have hbetween : ∀ {x : PoolAction α (WorkerPoint α) String}, x.between = true →
      x.isWake = false → s.pool.step x ≠ none → P := by
    intro x hx hwake hne
    refine hstuck (x := .pool x) hwake ?_
    obtain ⟨pool, hpool⟩ := Option.ne_none_iff_exists'.mp hne
    simp only [step, hx, if_true, move, hpool, Option.map_some, Option.isSome_some]
  have hrunning : ∀ {t : Nat} {n p}, s.pool.threads[t]? = some (.running n p) → P := by
    intro t n p hpc
    obtain ⟨t', woken, hgoes⟩ := h.some_work_goes hpc
    exact hstuck rfl hgoes
  obtain ⟨x, hown, hne⟩ := h.around.pool.goes hcall
  obtain ⟨pool, hpool⟩ := Option.ne_none_iff_exists'.mp hne
  cases x with
  | finish t =>
      obtain ⟨w, point, hpc, -⟩ := ThreadPool.step_cases hpool
      exact hrunning hpc
  | throw t e =>
      obtain ⟨w, point, hpc, -⟩ := ThreadPool.step_cases hpool
      exact hrunning hpc
  | lock t => exact hbetween rfl rfl hne
  | check => exact hbetween rfl rfl hne
  | stop => exact hbetween rfl rfl hne
  | notify => exact hbetween rfl rfl hne
  | join => exact hbetween rfl rfl hne
  | enqueue w woken => cases hown
  | process => cases hown
  | work t point => cases hown
  | wake t => cases hown
  | destroy => cases hown

/-- When nothing can happen any more, `processGraph` is over. -/
theorem Inv.over_of_idle (h : Inv nodes getEdges stage s) (hidle : s.Idle getEdges) :
    s.pool.caller = .destroyed ∧ s.outcome ≠ none := by
  have hstuck : ∀ {P : Prop} {x}, x.isWake = false → (s.step getEdges x).isSome = true → P := by
    intro P x hx hsome
    rw [hidle x hx] at hsome
    cases hsome
  cases hcaller : s.pool.caller with
  | destroyed => exact ⟨rfl, h.around.destroying (by rw [hcaller]; rfl)⟩
  | idle =>
      cases htodo : s.todo with
      | nil =>
          refine hstuck (x := .process) rfl ?_
          simp only [step, htodo, if_true, move, ThreadPool.step, hcaller, Option.map_some,
            Option.isSome_some]
      | cons n todo =>
          have hne : s.tokens ≠ [] := by
            unfold tokens
            rw [htodo]
            exact List.cons_ne_nil _ _
          have hquit := h.quit_of_idle (h.outcome_eq_none hne) hcaller
          obtain ⟨woken, s₁, hs₁⟩ := exists_enqueue (s := { s with todo }) hquit n
          refine hstuck (x := .add woken) rfl ?_
          simp only [step, htodo, hquit, Bool.false_eq_true, if_false, hs₁, Option.isSome_some]
  | ended =>
      have hdraining := h.around.draining.resolve_left fun hidle => by
        rw [hcaller] at hidle
        cases hidle
      cases hresult : s.pool.result with
      | none =>
          have hprocess := h.around.pool.owner.processing hdraining hresult
          rw [hcaller] at hprocess
          cases hprocess
      | some r =>
          obtain ⟨rfl, -, hnil⟩ := h.concluded hresult
          have hfree : s.locked = false := by
            refine Bool.eq_false_iff.mpr fun hlocked => ?_
            obtain ⟨d, l, hd, -⟩ := h.roster.waiting.locked hlocked
            have hmem := (h.tied.mem d _).mpr hd
            rw [hnil] at hmem
            cases hmem
          refine hstuck (x := .conclude) rfl ?_
          simp only [step, hresult, hfree, Bool.false_eq_true, if_false, move, ThreadPool.step,
            hcaller, Option.map_some, Option.isSome_some]
  | working t => exact h.stuck_in_call hstuck (by rw [hcaller]; rfl)
  | stopping exc => exact h.stuck_in_call hstuck (by rw [hcaller]; rfl)
  | notifying workers exc => exact h.stuck_in_call hstuck (by rw [hcaller]; rfl)
  | joining workers exc => exact h.stuck_in_call hstuck (by rw [hcaller]; rfl)

-- ============================================================================
-- Section 6: Whole runs
-- ============================================================================

/-- On every schedule: `processNode` is called at most once for a node, and only
    after it has returned for the other nodes that the node depends on.  If
    `processGraph` returns, the graph of the nodes has no cycle, and every node
    has been processed once; if it throws, the graph has a cycle.  It does one
    of the two once nothing but spurious wake-ups can happen, which comes about
    after so many steps. -/
theorem processGraph_respects_dependencies (nodes : Finset α) (getEdges : α → Finset α)
    (hardwareConcurrency : Nat) {l : List (GraphAction α)}
    (hrun : (system nodes getEdges hardwareConcurrency).run l
      (initial nodes hardwareConcurrency) = some s) :
    s.log.Nodup ∧
    (∀ before n after, s.log = before ++ .called n :: after →
      n ∈ nodes ∧ ∀ d ∈ nodes, d ∈ getEdges n → d ≠ n → .returned d ∈ before) ∧
    (s.outcome = some (.ok ()) → Acyclic (InducedEdge nodes getEdges) ∧
      ∀ n ∈ nodes, s.log.count (.called n) = 1 ∧ s.log.count (.returned n) = 1) ∧
    (∀ e, s.outcome = some (.error e) → ¬ Acyclic (InducedEdge nodes getEdges) ∧
      e = incompleteGraph) ∧
    (s.Idle getEdges → s.pool.caller = .destroyed ∧
      (s.outcome = some (.ok ()) ↔ Acyclic (InducedEdge nodes getEdges))) ∧
    l.countP (fun x => !x.isWake) ≤
      10 + nodes.card * (2 * nodes.card + 25) + l.countP GraphAction.isWake := by
  have hkeep : ∀ s s' x, (∃ stage, Inv nodes getEdges stage s) → step getEdges s x = some s' →
      ∃ stage, Inv nodes getEdges stage s' := by
    rintro s s' x ⟨stage, h⟩ hstep
    obtain ⟨stage', h', -⟩ := inv_step h hstep
    exact ⟨stage', h'⟩
  have hinitial : ∃ stage, Inv nodes getEdges stage (initial nodes hardwareConcurrency) :=
    ⟨_, inv_initial nodes getEdges hardwareConcurrency⟩
  obtain ⟨stage, h⟩ := System.run_keeps (I := fun s => ∃ stage, Inv nodes getEdges stage s) hkeep
    hinitial hrun
  -- when it is over, what is left decides
  have hended : ∀ o, s.outcome = some o → (o = .ok () ∧ s.graph.left = ∅ ∧
      Acyclic (InducedEdge nodes getEdges)) ∨
      (o = .error incompleteGraph ∧ ¬ Acyclic (InducedEdge nodes getEdges)) := by
    intro o ho
    obtain ⟨hnil, heq⟩ := h.ended o ho
    have hnone : ∀ n, stage n = none := by
      intro n
      refine Option.eq_none_iff_forall_ne_some.mpr fun p hp => ?_
      have hmem := (h.tied.mem n p).mpr hp
      rw [hnil] at hmem
      cases hmem
    have hiff : s.graph.left = ∅ ↔ _ := h.roster.left_eq_empty_iff hnone
    split at heq
    · next hempty => exact Or.inl ⟨heq, hempty, hiff.mp hempty⟩
    · next hne => exact Or.inr ⟨heq, fun hacyclic => hne (hiff.mpr hacyclic)⟩
  refine ⟨h.roster.logged.nodup, fun before n after hsplit => ?_, fun hok => ?_, fun e he => ?_,
    fun hidle => ?_, ?_⟩
  · have hmem : .called n ∈ s.log := by
      rw [hsplit]
      exact List.mem_append_right _ List.mem_cons_self
    exact ⟨((h.roster.logged.called n).mp hmem).1, (h.roster.logged.order before n after hsplit).2⟩
  · rcases hended _ hok with ⟨-, hempty, hacyclic⟩ | ⟨hfalse, -⟩
    · refine ⟨hacyclic, fun n hn => ?_⟩
      have hgone : n ∉ s.graph.left := by
        rw [hempty]
        exact Finset.notMem_empty n
      constructor
      · exact List.count_eq_one_of_mem h.roster.logged.nodup
          ((h.roster.logged.called n).mpr ⟨hn, Or.inl hgone⟩)
      · exact List.count_eq_one_of_mem h.roster.logged.nodup
          (h.roster.logged.returned_of_left hn hgone)
    · cases hfalse
  · rcases hended _ he with ⟨hfalse, -⟩ | ⟨heq, hcyclic⟩
    · cases hfalse
    · cases heq
      exact ⟨hcyclic, rfl⟩
  · obtain ⟨hcaller, hsome⟩ := h.over_of_idle hidle
    obtain ⟨o, ho⟩ := Option.ne_none_iff_exists'.mp hsome
    refine ⟨hcaller, ?_⟩
    rw [ho]
    rcases hended o ho with ⟨rfl, -, hacyclic⟩ | ⟨rfl, hcyclic⟩
    · exact iff_of_true rfl hacyclic
    · exact iff_of_false (fun heq => (by cases heq)) hcyclic
  · have hcost : ∀ s s' x, (∃ stage, Inv nodes getEdges stage s) →
        step getEdges s x = some s' → s'.cost nodes.card + 0 + (!x.isWake).toNat ≤
          s.cost nodes.card + 0 + x.isWake.toNat := by
      rintro s s' x ⟨stage, h⟩ hstep
      exact (inv_step h hstep).choose_spec.2
    have hpaid := System.run_cost (I := fun s => ∃ stage, Inv nodes getEdges stage s) hkeep hcost
      hinitial hrun
    rw [ThreadPool.sum_map_toNat, ThreadPool.sum_map_toNat, cost_initial] at hpaid
    omega

/-- The first node needs the second one, itself and a node that is not there. -/
def lateEdges (n : Nat) : Finset Nat := if n = 1 then {1, 2, 7} else ∅

/-- The first node is registered while the second one is being processed, and is
    enqueued when the second one retires. -/
def lateRun : List (GraphAction Nat) :=
  [.add none, .add none, .process, .pool (.lock 0), .pool (.lock 1), .work 0 none, .work 1 none,
    .work 1 none, .work 1 none, .work 0 none, .pool (.lock 0), .work 1 none, .work 1 none,
    .work 1 (some 0), .work 1 none, .pool (.lock 1), .pool (.lock 0), .work 1 none, .work 1 none,
    .work 1 none, .work 1 none, .work 1 none, .pool (.lock 1), .pool (.lock 0), .pool .check,
    .conclude, .pool .stop, .pool .notify, .pool .join]

theorem processGraph_lateRun :
    ∃ s, (system {1, 2} lateEdges 2).run lateRun (initial {1, 2} 2) = some s ∧
      s.log = [.called 2, .returned 2, .called 1, .returned 1] ∧
      Acyclic (InducedEdge {1, 2} lateEdges) := by
  have hends : ((system {1, 2} lateEdges 2).run lateRun (initial {1, 2} 2)).map
      (fun s => (s.log, s.outcome)) =
      some ([.called 2, .returned 2, .called 1, .returned 1], some (.ok ())) := by
    decide +kernel
  obtain ⟨s, hrun, heq⟩ := Option.map_eq_some_iff.mp hends
  have hok : s.outcome = some (.ok ()) := congrArg Prod.snd heq
  exact ⟨s, hrun, congrArg Prod.fst heq,
    ((processGraph_respects_dependencies {1, 2} lateEdges 2 hrun).2.2.1 hok).1⟩

end ProcessGraph
end NixStore
