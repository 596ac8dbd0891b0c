/-
  NixStore.Util.NodeRoster

  What `processGraph` does to its nodes, whatever the pool does with the items.

  A `Roster` says for each node that is in the hands of somebody where `worker`
  is; nodes that wait for others, and nodes that are done, are in nobody's
  hands.  The edges that a node still waits for are in `refs` as long as the
  other node is left, and the other node knows about it (`Waits`).  So a node
  that nobody has in hands waits for a node that is left, and at the end the
  nodes that are left are the ones that lead into a cycle.
-/

import NixStore.Lib.Acyclic
import NixStore.Util.ProcessGraph

namespace NixStore

open OrderedSet

variable {α : Type} [LinearOrder α]

-- ============================================================================
-- Section 1: The parts of `worker` that change the graph
-- ============================================================================

namespace Graph

variable {g g' : Graph α} {n m d : α}

theorem refs_setRefs (g : Graph α) (n : α) (refs : Finset α) (m : α) :
    (g.setRefs n refs).refs m = if m = n then some refs else g.refs m :=
  Function.update_apply _ _ _ _

theorem refsOf_setRefs (g : Graph α) (n : α) (refs : Finset α) (m : α) :
    (g.setRefs n refs).refsOf m = if m = n then refs else g.refsOf m := by
  unfold refsOf
  rw [refs_setRefs]
  split <;> rfl

omit [LinearOrder α] in
theorem refsOf_of_some {refs : Finset α} (h : g.refs n = some refs) : g.refsOf n = refs := by
  unfold refsOf
  rw [h]
  rfl

omit [LinearOrder α] in
theorem refsOf_of_none (h : g.refs n = none) : g.refsOf n = ∅ := by
  unfold refsOf
  rw [h]
  rfl

theorem left_addRef (n : α) (g : Graph α) (ref : α) : (addRef n g ref).left = g.left := by
  unfold addRef
  split <;> rfl

theorem refs_addRef (g : Graph α) (ref : α) (hne : m ≠ n) :
    (addRef n g ref).refs m = g.refs m := by
  unfold addRef
  split
  · exact (refs_setRefs g n _ m).trans (if_neg hne)
  · rfl

theorem mem_refsOf_addRef (g : Graph α) (ref : α) :
    d ∈ (addRef n g ref).refsOf m ↔ d ∈ g.refsOf m ∨ (m = n ∧ d = ref ∧ d ∈ g.left) := by
  unfold addRef
  split
  · next hleft =>
      show d ∈ (g.setRefs n (insert ref (g.refsOf n))).refsOf m ↔ _
      rw [refsOf_setRefs]
      split
      · next heq =>
          rw [Finset.mem_insert, heq]
          constructor
          · rintro (rfl | hold)
            · exact Or.inr ⟨rfl, rfl, hleft⟩
            · exact Or.inl hold
          · rintro (hold | ⟨-, hnew, -⟩)
            · exact Or.inr hold
            · exact Or.inl hnew
      · next hne => exact ⟨Or.inl, fun h => h.resolve_right fun hnew => hne hnew.1⟩
  · next hleft =>
      refine ⟨Or.inl, fun h => h.resolve_right ?_⟩
      rintro ⟨-, rfl, hd⟩
      exact hleft hd

theorem mem_rrefs_addRef (g : Graph α) (ref : α) :
    m ∈ (addRef n g ref).rrefs d ↔ m ∈ g.rrefs d ∨ (m = n ∧ d = ref ∧ d ∈ g.left) := by
  unfold addRef
  split
  · next hleft =>
      show m ∈ Function.update g.rrefs ref (insert n (g.rrefs ref)) d ↔ _
      rw [Function.update_apply]
      split
      · next heq =>
          subst heq
          rw [Finset.mem_insert]
          constructor
          · rintro (rfl | hold)
            · exact Or.inr ⟨rfl, rfl, hleft⟩
            · exact Or.inl hold
          · rintro (hold | ⟨hnew, -, -⟩)
            · exact Or.inr hold
            · exact Or.inl hnew
      · next hne => exact ⟨Or.inl, fun h => h.resolve_right fun hnew => hne hnew.2.1⟩
  · next hleft =>
      refine ⟨Or.inl, fun h => h.resolve_right ?_⟩
      rintro ⟨-, rfl, hd⟩
      exact hleft hd

/-- The loop over the edges of a node. -/
theorem foldl_addRef (n : α) (refs : List α) (g : Graph α) :
    (refs.foldl (addRef n) g).left = g.left ∧
    (∀ m, m ≠ n → (refs.foldl (addRef n) g).refs m = g.refs m) ∧
    (∀ m d, d ∈ (refs.foldl (addRef n) g).refsOf m ↔
      d ∈ g.refsOf m ∨ (m = n ∧ d ∈ refs ∧ d ∈ g.left)) ∧
    ∀ m d, m ∈ (refs.foldl (addRef n) g).rrefs d ↔
      m ∈ g.rrefs d ∨ (m = n ∧ d ∈ refs ∧ d ∈ g.left) := by
  induction refs generalizing g with
  | nil =>
      refine ⟨rfl, fun _ _ => rfl, fun m d => ?_, fun m d => ?_⟩ <;>
        exact ⟨Or.inl, fun h => h.resolve_right fun hnew => List.not_mem_nil hnew.2.1⟩
  | cons ref refs ih =>
      obtain ⟨hleft, hrefs, hrefsOf, hrrefs⟩ := ih (addRef n g ref)
      rw [left_addRef] at hleft
      refine ⟨hleft, fun m hne => ?_, fun m d => ?_, fun m d => ?_⟩
      · exact (hrefs m hne).trans (refs_addRef g ref hne)
      · rw [List.foldl_cons, hrefsOf, mem_refsOf_addRef, left_addRef, List.mem_cons]
        grind
      · rw [List.foldl_cons, hrrefs, mem_rrefs_addRef, left_addRef, List.mem_cons]
        grind

variable {refs : Finset α}

theorem left_register (n : α) (refs : Finset α) (g : Graph α) :
    (g.register n refs).left = g.left := (foldl_addRef n (inOrder refs) g).1

theorem refs_register (g : Graph α) (hne : m ≠ n) :
    (g.register n refs).refs m = g.refs m := by
  refine (refs_setRefs _ n _ m).trans ((if_neg hne).trans ?_)
  exact (foldl_addRef n (inOrder refs) g).2.1 m hne

theorem refs_register_self (n : α) (refs : Finset α) (g : Graph α) :
    (g.register n refs).refs n = some ((g.register n refs).refsOf n) := by
  unfold register
  dsimp only
  rw [refs_setRefs, if_pos rfl, refsOf_setRefs, if_pos rfl]

theorem mem_refsOf_register (g : Graph α) :
    d ∈ (g.register n refs).refsOf m ↔ d ∈ g.refsOf m ∨ (m = n ∧ d ∈ refs ∧ d ∈ g.left) := by
  have hloop := (foldl_addRef n (inOrder refs) g).2.2.1 m d
  rw [mem_inOrder] at hloop
  rw [← hloop]
  unfold register
  dsimp only
  rw [refsOf_setRefs]
  split
  · next heq => rw [heq]
  · rfl

theorem mem_rrefs_register (g : Graph α) :
    m ∈ (g.register n refs).rrefs d ↔ m ∈ g.rrefs d ∨ (m = n ∧ d ∈ refs ∧ d ∈ g.left) := by
  have hloop := (foldl_addRef n (inOrder refs) g).2.2.2 m d
  rw [mem_inOrder] at hloop
  exact hloop

/-- The loop body that retires a node, and when it does not fail. -/
theorem retire_eq_some (h : g.retire n m = some g') :
    n ∈ g.refsOf m ∧ g' = g.setRefs m ((g.refsOf m).erase n) := by
  obtain ⟨hmem, heq⟩ := Option.ite_none_right_eq_some.mp h
  exact ⟨hmem, (Option.some.inj heq).symm⟩

theorem retire_of_mem (h : n ∈ g.refsOf m) :
    g.retire n m = some (g.setRefs m ((g.refsOf m).erase n)) := if_pos h

theorem refs_leave (n : α) (g : Graph α) (m : α) :
    (g.leave n).refs m = if m = n then none else g.refs m := Function.update_apply _ _ _ _

theorem rrefs_leave (n : α) (g : Graph α) (d : α) :
    (g.leave n).rrefs d = if d = n then ∅ else g.rrefs d := Function.update_apply _ _ _ _

theorem refsOf_leave (n : α) (g : Graph α) (m : α) :
    (g.leave n).refsOf m = if m = n then ∅ else g.refsOf m := by
  unfold refsOf
  rw [refs_leave]
  split <;> rfl

end Graph

-- ============================================================================
-- Section 2: The roster
-- ============================================================================

/-- What `processGraph` knows about its nodes, and where `worker` is for those
    that are in the hands of somebody. -/
structure Roster (α : Type) where
  graph : Graph α
  locked : Bool
  stage : α → Option (WorkerPoint α)
  log : List (NodeEvent α)

namespace Roster

/-- A node changes hands. -/
def put (n : α) (p : Option (WorkerPoint α)) (r : Roster α) : Roster α :=
  { r with stage := Function.update r.stage n p }

/-- The steps of `worker`, for any node that somebody has in hands. -/
inductive Step (getEdges : α → Finset α) : Roster α → Roster α → Prop
  | look {r : Roster α} {n : α} (hn : r.stage n = some .start) (hfree : r.locked = false) :
      Step getEdges r (r.put n (some (if (r.graph.refs n).isNone then .getRefs else .doWork)))
  | register {r : Roster α} {n : α} {graph : Graph α} (hn : r.stage n = some .getRefs)
      (hfree : r.locked = false) (hgraph : r.graph.register n ((getEdges n).erase n) = graph) :
      Step getEdges r
        ({ r with graph }.put n (if graph.refsOf n = ∅ then some .doWork else none))
  | call {r : Roster α} {n : α} (hn : r.stage n = some .doWork) :
      Step getEdges r
        ({ r with log := r.log ++ [NodeEvent.called n] }.put n (some .processing))
  | ret {r : Roster α} {n : α} (hn : r.stage n = some .processing) :
      Step getEdges r
        ({ r with log := r.log ++ [NodeEvent.returned n] }.put n (some .processed))
  | lock {r : Roster α} {n : α} (hn : r.stage n = some .processed) (hfree : r.locked = false) :
      Step getEdges r
        ({ r with locked := true }.put n (some (.retiring (inOrder (r.graph.rrefs n)))))
  | retire {r : Roster α} {n m : α} {rrefs : List α} {graph : Graph α}
      (hn : r.stage n = some (.retiring (m :: rrefs)))
      (hgraph : r.graph.retire n m = some graph) :
      Step getEdges r
        (({ r with graph }.put m (if graph.refsOf m = ∅ then some .start else r.stage m)).put n
          (some (.retiring rrefs)))
  | leave {r : Roster α} {n : α} (hn : r.stage n = some (.retiring [])) :
      Step getEdges r ({ r with graph := r.graph.leave n, locked := false }.put n none)

theorem stage_put (n : α) (p : Option (WorkerPoint α)) (r : Roster α) (m : α) :
    (r.put n p).stage m = if m = n then p else r.stage m := Function.update_apply _ _ _ _

/-- What `refs` holds for a node that is in the hands of somebody. -/
def Fits (refs : Option (Finset α)) : WorkerPoint α → Prop
  | .start => refs = none ∨ refs = some ∅
  | .getRefs => refs = none
  | _ => refs = some ∅

/-- One node waits for another. -/
def Waits (r : Roster α) (n d : α) : Prop := d ∈ r.graph.refsOf n

/-- Who waits for whom, and who knows about it. -/
structure Waiting (nodes : Finset α) (getEdges : α → Finset α) (r : Roster α) : Prop where
  left_nodes : r.graph.left ⊆ nodes
  refs_left : ∀ n, r.graph.refs n ≠ none → n ∈ r.graph.left
  waits : ∀ n d, r.Waits n d → d ∈ r.graph.left ∧ d ∈ getEdges n ∧ d ≠ n
  held : ∀ n p, r.stage n = some p → n ∈ r.graph.left ∧ Fits (r.graph.refs n) p
  waiting : ∀ n ∈ r.graph.left, r.stage n = none → ∃ d, r.Waits n d
  rrefs : ∀ d, (∀ l, r.stage d ≠ some (.retiring l)) → ∀ n, n ∈ r.graph.rrefs d ↔ r.Waits n d
  retiring : ∀ d l, r.stage d = some (.retiring l) →
    r.locked = true ∧ l.Nodup ∧ ∀ n, n ∈ l ↔ r.Waits n d
  locked : r.locked = true → ∃ d l, r.stage d = some (.retiring l) ∧
    ∀ d' l', r.stage d' = some (.retiring l') → d' = d

/-- Something has happened for a node: it has left, or `worker` is behind it. -/
def Passed (f : WorkerPoint α → Bool) (r : Roster α) (n : α) : Prop :=
  n ∉ r.graph.left ∨ (r.stage n).any f = true

/-- What the log says, and that it is in order. -/
structure Logged (nodes : Finset α) (getEdges : α → Finset α) (r : Roster α) : Prop where
  called : ∀ n, .called n ∈ r.log ↔ n ∈ nodes ∧ r.Passed WorkerPoint.isCalled n
  returned : ∀ n, .returned n ∈ r.log ↔ n ∈ nodes ∧ r.Passed WorkerPoint.isReturned n
  settled : ∀ n d, r.graph.refs n ≠ none → d ∈ nodes → d ∈ getEdges n → d ≠ n → ¬ r.Waits n d →
    .returned d ∈ r.log
  nodup : r.log.Nodup
  order : ∀ before n after, r.log = before ++ .called n :: after →
    .returned n ∉ before ∧ ∀ d ∈ nodes, d ∈ getEdges n → d ≠ n → .returned d ∈ before

variable {nodes : Finset α} {getEdges : α → Finset α} {r : Roster α} {n m d : α}
variable {p p' : WorkerPoint α}

omit [LinearOrder α] in
/-- A node that waits is in nobody's hands. -/
theorem Waiting.stage_eq_none (h : Waiting nodes getEdges r) (hwaits : r.Waits n d) :
    r.stage n = none := by
  cases hstage : r.stage n with
  | none => rfl
  | some p =>
      have hempty : r.graph.refsOf n = ∅ := by
        have hfits := (h.held n p hstage).2
        cases p with
        | start => exact hfits.elim Graph.refsOf_of_none Graph.refsOf_of_some
        | getRefs => exact Graph.refsOf_of_none hfits
        | doWork => exact Graph.refsOf_of_some hfits
        | processing => exact Graph.refsOf_of_some hfits
        | processed => exact Graph.refsOf_of_some hfits
        | retiring l => exact Graph.refsOf_of_some hfits
      have hmem : d ∈ r.graph.refsOf n := hwaits
      rw [hempty] at hmem
      exact absurd hmem (Finset.notMem_empty d)

omit [LinearOrder α] in
/-- A node that waits is left. -/
theorem Waiting.mem_left (h : Waiting nodes getEdges r) (hwaits : r.Waits n d) :
    n ∈ r.graph.left := by
  refine h.refs_left n fun hnone => ?_
  have hmem : d ∈ r.graph.refsOf n := hwaits
  rw [Graph.refsOf_of_none hnone] at hmem
  exact absurd hmem (Finset.notMem_empty d)

omit [LinearOrder α] in
/-- Nothing is being retired while the lock is free. -/
theorem Waiting.not_retiring (h : Waiting nodes getEdges r) (hfree : r.locked = false) (d : α)
    (l : List α) : r.stage d ≠ some (.retiring l) := by
  intro hd
  rw [(h.retiring d l hd).1] at hfree
  cases hfree

def isRetiring : WorkerPoint α → Bool
  | .retiring _ => true
  | _ => false

/-- A node that is in somebody's hands stays there. -/
theorem Waiting.put (h : Waiting nodes getEdges r) (hn : r.stage n = some p)
    (hfits : Fits (r.graph.refs n) p') :
    (∀ m q, (r.put n (some p')).stage m = some q →
      m ∈ r.graph.left ∧ Fits (r.graph.refs m) q) ∧
    ∀ m ∈ r.graph.left, (r.put n (some p')).stage m = none → ∃ d, r.Waits m d := by
  constructor
  · intro m q hm
    rw [stage_put] at hm
    split at hm
    · next heq =>
        cases hm
        rw [heq]
        exact ⟨(h.held n p hn).1, hfits⟩
    · exact h.held m q hm
  · intro m hleft hm
    rw [stage_put] at hm
    split at hm
    · cases hm
    · exact h.waiting m hleft hm

/-- `worker` goes on outside of the loop that retires the node. -/
theorem Waiting.goOn (h : Waiting nodes getEdges r) (hn : r.stage n = some p)
    (hp : isRetiring p = false) (hp' : isRetiring p' = false) (hfits : Fits (r.graph.refs n) p')
    (log : List (NodeEvent α)) :
    Waiting nodes getEdges ({ r with log }.put n (some p')) := by
  obtain ⟨hheld, hwaiting⟩ := h.put hn hfits
  have hstage : ∀ d l, (r.put n (some p')).stage d = some (.retiring l) ↔
      r.stage d = some (.retiring l) := by
    intro d l
    rw [stage_put]
    split
    · next heq =>
        subst heq
        rw [hn]
        constructor <;> intro heq <;> cases heq
        · cases hp'
        · cases hp
    · rfl
  refine ⟨h.left_nodes, h.refs_left, h.waits, hheld, hwaiting,
    fun d hd => h.rrefs d fun l hl => hd l ((hstage d l).mpr hl),
    fun d l hd => h.retiring d l ((hstage d l).mp hd), fun hlocked => ?_⟩
  obtain ⟨d, l, hd, honly⟩ := h.locked hlocked
  exact ⟨d, l, (hstage d l).mpr hd, fun d' l' hd' => honly d' l' ((hstage d' l').mp hd')⟩

/-- The edges of a node are registered with the nodes that are left. -/
theorem Waiting.register (h : Waiting nodes getEdges r) (hn : r.stage n = some .getRefs)
    (hfree : r.locked = false) {graph : Graph α}
    (hgraph : r.graph.register n ((getEdges n).erase n) = graph) :
    Waiting nodes getEdges
      ({ r with graph }.put n (if graph.refsOf n = ∅ then some .doWork else none)) := by
  subst hgraph
  obtain ⟨hnleft, hnone⟩ := h.held n _ hn
  have hleft := Graph.left_register n ((getEdges n).erase n) r.graph
  -- `n` waits for those of its edges that are left, and nothing else changes
  have hwaits : ∀ m d, d ∈ (r.graph.register n ((getEdges n).erase n)).refsOf m ↔
      r.Waits m d ∨ (m = n ∧ d ∈ (getEdges n).erase n ∧ d ∈ r.graph.left) :=
    fun m d => Graph.mem_refsOf_register r.graph
  -- the fields of the invariant, in their order
  refine ⟨?_, fun m hm => ?_, fun m d hmd => ?_, fun m q hm => ?_, fun m hm hmnone => ?_,
    fun d _ m => ?_, fun d l hd => ?_, fun hlocked => ?_⟩
  · show (r.graph.register n ((getEdges n).erase n)).left ⊆ nodes
    rw [hleft]
    exact h.left_nodes
  · show m ∈ (r.graph.register n ((getEdges n).erase n)).left
    rw [hleft]
    by_cases heq : m = n
    · rw [heq]
      exact hnleft
    · have hm' : (r.graph.register n ((getEdges n).erase n)).refs m ≠ none := hm
      rw [Graph.refs_register _ heq] at hm'
      exact h.refs_left m hm'
  · show d ∈ (r.graph.register n ((getEdges n).erase n)).left ∧ _
    rw [hleft]
    rcases (hwaits m d).mp hmd with hold | ⟨rfl, hedge, hdleft⟩
    · exact h.waits m d hold
    · obtain ⟨hne, hmem⟩ := Finset.mem_erase.mp hedge
      exact ⟨hdleft, hmem, hne⟩
  · show m ∈ (r.graph.register n ((getEdges n).erase n)).left ∧ _
    rw [hleft]
    rw [stage_put] at hm
    split at hm
    · next heq =>
        subst heq
        split at hm
        · next hempty =>
            cases hm
            exact ⟨hnleft, (Graph.refs_register_self ..).trans (congrArg some hempty)⟩
        · cases hm
    · next hne =>
        obtain ⟨hmleft, hfits⟩ := h.held m q hm
        refine ⟨hmleft, ?_⟩
        show Fits ((r.graph.register n ((getEdges n).erase n)).refs m) q
        rw [Graph.refs_register _ hne]
        exact hfits
  · have hmleft : m ∈ (r.graph.register n ((getEdges n).erase n)).left := hm
    rw [hleft] at hmleft
    rw [stage_put] at hmnone
    split at hmnone
    · next heq =>
        subst heq
        split at hmnone
        · cases hmnone
        · next hempty => exact Finset.nonempty_iff_ne_empty.mpr hempty
    · obtain ⟨d, hd⟩ := h.waiting m hmleft hmnone
      exact ⟨d, (hwaits m d).mpr (Or.inl hd)⟩
  · refine (Graph.mem_rrefs_register r.graph).trans (Iff.trans ?_ (hwaits m d).symm)
    rw [h.rrefs d (h.not_retiring hfree d) m]
  · rw [stage_put] at hd
    split at hd
    · split at hd <;> cases hd
    · exact absurd hd (h.not_retiring hfree d l)
  · rw [show r.locked = true from hlocked] at hfree
    cases hfree

/-- A node that has been processed takes the lock, to retire. -/
theorem Waiting.lock (h : Waiting nodes getEdges r) (hn : r.stage n = some .processed)
    (hfree : r.locked = false) :
    Waiting nodes getEdges
      ({ r with locked := true }.put n (some (.retiring (inOrder (r.graph.rrefs n))))) := by
  have hfits : Fits (r.graph.refs n) (.retiring (inOrder (r.graph.rrefs n))) :=
    (h.held n _ hn).2
  obtain ⟨hheld, hwaiting⟩ := h.put hn hfits
  refine ⟨h.left_nodes, h.refs_left, h.waits, hheld, hwaiting,
    fun d _ => h.rrefs d (h.not_retiring hfree d), fun d l hd => ?_, fun _ => ?_⟩
  · rw [stage_put] at hd
    split at hd
    · next heq =>
        cases hd
        rw [heq]
        refine ⟨rfl, nodup_inOrder _, fun m => ?_⟩
        rw [mem_inOrder]
        exact h.rrefs n (h.not_retiring hfree n) m
    · exact absurd hd (h.not_retiring hfree d l)
  · refine ⟨n, _, (stage_put _ _ _ _).trans (if_pos rfl), fun d l hd => ?_⟩
    rw [stage_put] at hd
    split at hd
    · next heq => exact heq
    · exact absurd hd (h.not_retiring hfree d l)

/-- A node that waits is told about one that has been processed. -/
theorem Waiting.retire (h : Waiting nodes getEdges r) {rrefs : List α}
    (hn : r.stage n = some (.retiring (m :: rrefs))) {graph : Graph α}
    (hgraph : r.graph.retire n m = some graph) :
    Waiting nodes getEdges
      (({ r with graph }.put m (if graph.refsOf m = ∅ then some .start else r.stage m)).put n
        (some (.retiring rrefs))) := by
  obtain ⟨hmn, rfl⟩ := Graph.retire_eq_some hgraph
  obtain ⟨hlocked, hnodup, hmem⟩ := h.retiring n _ hn
  obtain ⟨d₀, l₀, hd₀, honly⟩ := h.locked hlocked
  obtain ⟨-, -, hne⟩ := h.waits m n hmn
  have hmnone := h.stage_eq_none hmn
  have hrefs := Graph.refs_setRefs r.graph m ((r.graph.refsOf m).erase n)
  -- `m` waits for `n` no longer, and nothing else changes
  have hwaits : ∀ a d, d ∈ (r.graph.setRefs m ((r.graph.refsOf m).erase n)).refsOf a ↔
      r.Waits a d ∧ ¬ (a = m ∧ d = n) := by
    intro a d
    rw [Graph.refsOf_setRefs]
    split
    · next heq =>
        rw [heq, Finset.mem_erase]
        exact ⟨fun hd => ⟨hd.2, fun hboth => hd.1 hboth.2⟩,
          fun hd => ⟨fun hdn => hd.2 ⟨rfl, hdn⟩, hd.1⟩⟩
    · next hama => exact ⟨fun hd => ⟨hd, fun hboth => hama hboth.1⟩, And.left⟩
  have hretiring : ∀ d l, d ≠ n → r.stage d ≠ some (.retiring l) := by
    intro d l hdn hd
    exact hdn ((honly d l hd).trans (honly n _ hn).symm)
  -- the fields of the invariant; where a stage is asked for, it is that of `n`,
  -- that of `m` or an old one
  refine ⟨h.left_nodes, fun a ha => ?_, fun a d had => h.waits a d ((hwaits a d).mp had).1,
    fun a q ha => ?_, fun a haleft hanone => ?_, fun d hd a => ?_, fun d l hd => ?_, fun _ => ?_⟩
  · by_cases heq : a = m
    · rw [heq]
      exact h.mem_left hmn
    · refine h.refs_left a ?_
      have ha' : (r.graph.setRefs m ((r.graph.refsOf m).erase n)).refs a ≠ none := ha
      rw [hrefs, if_neg heq] at ha'
      exact ha'
  · show a ∈ r.graph.left ∧ Fits ((r.graph.setRefs m ((r.graph.refsOf m).erase n)).refs a) q
    rw [hrefs]
    rw [stage_put, stage_put] at ha
    split at ha
    · next heq =>
        cases ha
        rw [heq, if_neg hne]
        exact ⟨(h.held n _ hn).1, (h.held n _ hn).2⟩
    · split at ha
      · next heq =>
          rw [if_pos heq, heq]
          split at ha
          · next hempty =>
              cases ha
              rw [Graph.refsOf_setRefs, if_pos rfl] at hempty
              exact ⟨h.mem_left hmn, Or.inr (congrArg some hempty)⟩
          · rw [hmnone] at ha
            cases ha
      · next heq =>
          rw [if_neg heq]
          exact h.held a q ha
  · rw [stage_put, stage_put] at hanone
    split at hanone
    · cases hanone
    · split at hanone
      · next heq =>
          split at hanone
          · cases hanone
          · next hempty =>
              rw [heq]
              exact Finset.nonempty_iff_ne_empty.mpr hempty
      · next heq =>
          obtain ⟨d, hd⟩ := h.waiting a haleft hanone
          exact ⟨d, (hwaits a d).mpr ⟨hd, fun hboth => heq hboth.1⟩⟩
  · have hdn : d ≠ n := by
      intro heq
      exact hd rrefs ((stage_put _ _ _ _).trans (if_pos heq))
    have hold := h.rrefs d (fun l => hretiring d l hdn) a
    refine hold.trans (Iff.trans ?_ (hwaits a d).symm)
    exact ⟨fun had => ⟨had, fun hboth => hdn hboth.2⟩, And.left⟩
  · rw [stage_put, stage_put] at hd
    split at hd
    · next heq =>
        cases hd
        rw [heq]
        obtain ⟨hnotin, hrest⟩ := List.nodup_cons.mp hnodup
        refine ⟨hlocked, hrest, fun a => Iff.trans ?_ (hwaits a n).symm⟩
        rw [← hmem a, List.mem_cons]
        constructor
        · intro ha
          refine ⟨Or.inr ha, fun hboth => hnotin ?_⟩
          rw [← hboth.1]
          exact ha
        · rintro ⟨ha, hnot⟩
          exact ha.resolve_left fun heq => hnot ⟨heq, rfl⟩
    · next hdn =>
        split at hd
        · split at hd
          · cases hd
          · rw [hmnone] at hd
            cases hd
        · exact absurd hd (hretiring d l hdn)
  · refine ⟨n, rrefs, (stage_put _ _ _ _).trans (if_pos rfl), fun d l hd => ?_⟩
    rw [stage_put, stage_put] at hd
    split at hd
    · next heq => exact heq
    · next hdn =>
        split at hd
        · split at hd
          · cases hd
          · rw [hmnone] at hd
            cases hd
        · exact absurd hd (hretiring d l hdn)

/-- A node for which nobody waits any more leaves. -/
theorem Waiting.leave (h : Waiting nodes getEdges r) (hn : r.stage n = some (.retiring [])) :
    Waiting nodes getEdges ({ r with graph := r.graph.leave n, locked := false }.put n none) := by
  obtain ⟨hlocked, -, hmem⟩ := h.retiring n _ hn
  obtain ⟨d₀, l₀, hd₀, honly⟩ := h.locked hlocked
  have hnobody : ∀ a, ¬ r.Waits a n := fun a ha => List.not_mem_nil ((hmem a).mpr ha)
  have hwaits : ∀ a d, d ∈ (r.graph.leave n).refsOf a ↔ r.Waits a d := by
    intro a d
    rw [Graph.refsOf_leave]
    split
    · next heq =>
        refine ⟨fun hd => absurd hd (Finset.notMem_empty d), fun hd => ?_⟩
        have hnone := h.stage_eq_none hd
        rw [heq, hn] at hnone
        cases hnone
    · rfl
  refine ⟨fun a ha => h.left_nodes (Finset.mem_of_mem_erase ha), fun a ha => ?_,
    fun a d had => ?_, fun a q ha => ?_, fun a haleft hanone => ?_, fun d hd a => ?_,
    fun d l hd => ?_, fun hfalse => (by cases hfalse)⟩
  · have ha' : (r.graph.leave n).refs a ≠ none := ha
    rw [Graph.refs_leave] at ha'
    split at ha'
    · exact absurd rfl ha'
    · next hne => exact Finset.mem_erase.mpr ⟨hne, h.refs_left a ha'⟩
  · have hold := (hwaits a d).mp had
    obtain ⟨hdleft, hedge⟩ := h.waits a d hold
    refine ⟨Finset.mem_erase.mpr ⟨fun heq => hnobody a ?_, hdleft⟩, hedge⟩
    rw [← heq]
    exact hold
  · rw [stage_put] at ha
    split at ha
    · cases ha
    · next hne =>
        obtain ⟨haleft, hfits⟩ := h.held a q ha
        refine ⟨Finset.mem_erase.mpr ⟨hne, haleft⟩, ?_⟩
        show Fits ((r.graph.leave n).refs a) q
        rw [Graph.refs_leave, if_neg hne]
        exact hfits
  · obtain ⟨hne, hold⟩ := Finset.mem_erase.mp haleft
    rw [stage_put, if_neg hne] at hanone
    obtain ⟨d, hd⟩ := h.waiting a hold hanone
    exact ⟨d, (hwaits a d).mpr hd⟩
  · refine Iff.trans ?_ (hwaits a d).symm
    show a ∈ (r.graph.leave n).rrefs d ↔ _
    rw [Graph.rrefs_leave]
    split
    · next heq =>
        rw [heq]
        exact ⟨fun ha => absurd ha (Finset.notMem_empty a), fun ha => absurd ha (hnobody a)⟩
    · next hne =>
        refine h.rrefs d (fun l hl => hd l ?_) a
        rw [stage_put, if_neg hne]
        exact hl
  · rw [stage_put] at hd
    split at hd
    · cases hd
    · next hne => exact absurd ((honly d l hd).trans (honly n _ hn).symm) hne

-- ============================================================================
-- Section 3: The log
-- ============================================================================

omit [LinearOrder α] in
theorem passed_congr {r' : Roster α} {f : WorkerPoint α → Bool}
    (hleft : r'.graph.left = r.graph.left)
    (hstage : (r'.stage n).any f = (r.stage n).any f) : r'.Passed f n ↔ r.Passed f n := by
  unfold Passed
  rw [hleft, hstage]

theorem any_put {q : Option (WorkerPoint α)} {f : WorkerPoint α → Bool}
    (hf : q.any f = (r.stage n).any f) (m : α) :
    ((r.put n q).stage m).any f = (r.stage m).any f := by
  rw [stage_put]
  split
  · next heq =>
      rw [heq]
      exact hf
  · rfl

omit [LinearOrder α] in
/-- A step that calls nothing: everybody is behind the same calls as before. -/
theorem Logged.congr {r' : Roster α} (h : Logged nodes getEdges r) (hlog : r'.log = r.log)
    (hcalled : ∀ m, r'.Passed WorkerPoint.isCalled m ↔ r.Passed WorkerPoint.isCalled m)
    (hreturned : ∀ m, r'.Passed WorkerPoint.isReturned m ↔ r.Passed WorkerPoint.isReturned m)
    (hsettled : ∀ m d, r'.graph.refs m ≠ none → d ∈ nodes → d ∈ getEdges m → d ≠ m →
      ¬ r'.Waits m d → .returned d ∈ r.log) : Logged nodes getEdges r' where
  called := by
    intro m
    rw [hlog, hcalled]
    exact h.called m
  returned := by
    intro m
    rw [hlog, hreturned]
    exact h.returned m
  settled := by
    rw [hlog]
    exact hsettled
  nodup := by
    rw [hlog]
    exact h.nodup
  order := by
    rw [hlog]
    exact h.order

omit [LinearOrder α] in
/-- A node that has left has been processed. -/
theorem Logged.returned_of_left (h : Logged nodes getEdges r) (hd : d ∈ nodes)
    (hleft : d ∉ r.graph.left) : .returned d ∈ r.log := (h.returned d).mpr ⟨hd, Or.inl hleft⟩

theorem Logged.look (h : Logged nodes getEdges r) (hn : r.stage n = some .start) :
    Logged nodes getEdges
      (r.put n (some (if (r.graph.refs n).isNone then .getRefs else .doWork))) := by
  refine h.congr rfl (fun m => passed_congr rfl (any_put ?_ m))
    (fun m => passed_congr rfl (any_put ?_ m)) h.settled
  · rw [hn]
    split <;> rfl
  · rw [hn]
    split <;> rfl

theorem Logged.register (h : Logged nodes getEdges r) (hn : r.stage n = some .getRefs)
    {graph : Graph α} (hgraph : r.graph.register n ((getEdges n).erase n) = graph) :
    Logged nodes getEdges
      ({ r with graph }.put n (if graph.refsOf n = ∅ then some .doWork else none)) := by
  subst hgraph
  have hleft := Graph.left_register n ((getEdges n).erase n) r.graph
  refine h.congr rfl (fun m => passed_congr hleft (any_put ?_ m))
    (fun m => passed_congr hleft (any_put ?_ m)) fun m d hm hd hedge hne hwaits => ?_
  · show Option.any _ _ = Option.any _ (r.stage n)
    rw [hn]
    split <;> rfl
  · show Option.any _ _ = Option.any _ (r.stage n)
    rw [hn]
    split <;> rfl
  · have hnot : d ∉ (r.graph.register n ((getEdges n).erase n)).refsOf m := hwaits
    rw [Graph.mem_refsOf_register, not_or] at hnot
    by_cases heq : m = n
    · -- the other node is not among those that are left
      subst heq
      refine h.returned_of_left hd fun hdleft => hnot.2 ⟨rfl, ?_, hdleft⟩
      exact Finset.mem_erase.mpr ⟨hne, hedge⟩
    · have hm' : (r.graph.register n ((getEdges n).erase n)).refs m ≠ none := hm
      rw [Graph.refs_register _ heq] at hm'
      exact h.settled m d hm' hd hedge hne hnot.1

theorem Logged.lock (h : Logged nodes getEdges r) (hn : r.stage n = some .processed)
    (l : List α) : Logged nodes getEdges
      ({ r with locked := true }.put n (some (.retiring l))) := by
  refine h.congr rfl (fun m => passed_congr rfl (any_put ?_ m))
    (fun m => passed_congr rfl (any_put ?_ m)) h.settled
  · show _ = Option.any _ (r.stage n)
    rw [hn]
    rfl
  · show _ = Option.any _ (r.stage n)
    rw [hn]
    rfl

/-- What was waited for has been processed. -/
theorem Logged.retire (h : Logged nodes getEdges r) (hwaiting : Waiting nodes getEdges r)
    {rrefs : List α} (hn : r.stage n = some (.retiring (m :: rrefs))) {graph : Graph α}
    (hgraph : r.graph.retire n m = some graph) :
    Logged nodes getEdges
      (({ r with graph }.put m (if graph.refsOf m = ∅ then some .start else r.stage m)).put n
        (some (.retiring rrefs))) := by
  obtain ⟨hmn, rfl⟩ := Graph.retire_eq_some hgraph
  have hmnone := hwaiting.stage_eq_none hmn
  obtain ⟨-, -, hne⟩ := hwaiting.waits m n hmn
  have hstage : ∀ (f : WorkerPoint α → Bool), f .start = false →
      f (.retiring rrefs) = f (.retiring (m :: rrefs)) → ∀ a,
      (((r.put m (if (r.graph.setRefs m ((r.graph.refsOf m).erase n)).refsOf m = ∅
        then some .start else r.stage m)).put n (some (.retiring rrefs))).stage a).any f =
      (r.stage a).any f := by
    intro f hstart hretiring a
    rw [any_put (r := r.put m _), any_put]
    · split
      · rw [hmnone]
        exact hstart
      · rfl
    · rw [stage_put, if_neg hne, hn]
      exact hretiring
  refine h.congr rfl (fun a => passed_congr rfl (hstage _ rfl rfl a))
    (fun a => passed_congr rfl (hstage _ rfl rfl a)) fun a d ha hd hedge hda hwaits => ?_
  have ha' : (r.graph.setRefs m ((r.graph.refsOf m).erase n)).refs a ≠ none := ha
  have hnot : d ∉ (r.graph.setRefs m ((r.graph.refsOf m).erase n)).refsOf a := hwaits
  rw [Graph.refs_setRefs] at ha'
  rw [Graph.refsOf_setRefs] at hnot
  split at hnot
  · next heq =>
      rw [heq] at hedge hda ha'
      by_cases hdn : d = n
      · rw [hdn, h.returned]
        refine ⟨hwaiting.left_nodes (hwaiting.held n _ hn).1, Or.inr ?_⟩
        rw [hn]
        rfl
      · refine h.settled m d ?_ hd hedge hda fun hold => hnot (Finset.mem_erase.mpr ⟨hdn, hold⟩)
        intro hnone
        have hmem : n ∈ r.graph.refsOf m := hmn
        rw [Graph.refsOf_of_none hnone] at hmem
        exact absurd hmem (Finset.notMem_empty n)
  · next heq =>
      rw [if_neg heq] at ha'
      exact h.settled a d ha' hd hedge hda hnot

theorem Logged.leave (h : Logged nodes getEdges r) (hn : r.stage n = some (.retiring [])) :
    Logged nodes getEdges ({ r with graph := r.graph.leave n, locked := false }.put n none) := by
  have hpassed : ∀ (f : WorkerPoint α → Bool), f (.retiring []) = true → ∀ m,
      Passed f ({ r with graph := r.graph.leave n, locked := false }.put n none) m ↔
        r.Passed f m := by
    intro f hf m
    unfold Passed
    rw [stage_put]
    split
    · next heq =>
        rw [heq, hn]
        refine iff_of_true (Or.inl ?_) (Or.inr hf)
        exact fun hmem => (Finset.mem_erase.mp hmem).1 rfl
    · next hne =>
        have hmem : m ∈ (r.graph.leave n).left ↔ m ∈ r.graph.left :=
          Finset.mem_erase.trans (and_iff_right hne)
        exact or_congr_left (not_congr hmem)
  refine h.congr rfl (hpassed _ rfl) (hpassed _ rfl) fun m d hm hd hedge hdm hwaits => ?_
  have hm' : (r.graph.leave n).refs m ≠ none := hm
  have hnot : d ∉ (r.graph.leave n).refsOf m := hwaits
  rw [Graph.refs_leave] at hm'
  rw [Graph.refsOf_leave] at hnot
  split at hm'
  · exact absurd rfl hm'
  · next hne =>
      rw [if_neg hne] at hnot
      exact h.settled m d hm' hd hedge hdm hnot

omit [LinearOrder α] in
/-- The last event of a log is that of a split of it, or what follows grows. -/
theorem append_split {l before after : List (NodeEvent α)} {x y : NodeEvent α}
    (h : l ++ [x] = before ++ y :: after) :
    (x = y ∧ before = l) ∨ ∃ after', l = before ++ y :: after' := by
  rcases List.eq_nil_or_concat after with rfl | ⟨after', z, rfl⟩
  · obtain ⟨hl, hx⟩ := List.append_inj' h rfl
    exact Or.inl ⟨List.head_eq_of_cons_eq hx, hl.symm⟩
  · rw [List.concat_eq_append, ← List.cons_append, ← List.append_assoc] at h
    exact Or.inr ⟨after', (List.append_inj' h rfl).1⟩

/-- `processNode` is called once for a node, after it has returned for those the
    node depends on. -/
theorem Logged.call (h : Logged nodes getEdges r) (hwaiting : Waiting nodes getEdges r)
    (hn : r.stage n = some .doWork) :
    Logged nodes getEdges
      ({ r with log := r.log ++ [NodeEvent.called n] }.put n (some .processing)) := by
  obtain ⟨hleft, hrefs⟩ := hwaiting.held n _ hn
  have hnew : .called n ∉ r.log := by
    intro hmem
    rcases ((h.called n).mp hmem).2 with hgone | hany
    · exact hgone hleft
    · rw [hn] at hany
      cases hany
  have hnot : .returned n ∉ r.log := by
    intro hmem
    rcases ((h.returned n).mp hmem).2 with hgone | hany
    · exact hgone hleft
    · rw [hn] at hany
      cases hany
  have hsettled : ∀ d ∈ nodes, d ∈ getEdges n → d ≠ n → .returned d ∈ r.log := by
    intro d hd hedge hne
    refine h.settled n d (by rw [hrefs]; exact Option.some_ne_none _) hd hedge hne fun hwaits => ?_
    have hmem : d ∈ r.graph.refsOf n := hwaits
    rw [Graph.refsOf_of_some hrefs] at hmem
    exact absurd hmem (Finset.notMem_empty d)
  refine ⟨fun m => ?_, fun m => ?_, fun m d hm hd hedge hne hwaits => ?_, ?_,
    fun before m after hsplit => ?_⟩
  · show NodeEvent.called m ∈ r.log ++ [NodeEvent.called n] ↔ _
    rw [List.mem_append, List.mem_singleton, h.called, NodeEvent.called.injEq]
    unfold Passed
    rw [stage_put]
    split
    · next heq =>
        rw [heq]
        exact iff_of_true (Or.inr rfl) ⟨hwaiting.left_nodes hleft, Or.inr rfl⟩
    · next hne => exact or_iff_left hne
  · show NodeEvent.returned m ∈ r.log ++ [NodeEvent.called n] ↔ _
    rw [List.mem_append, List.mem_singleton, h.returned]
    refine (or_iff_left fun heq => (by cases heq)).trans (and_congr_right fun _ => ?_)
    refine Iff.symm (passed_congr rfl (any_put ?_ m))
    show _ = Option.any _ (r.stage n)
    rw [hn]
    rfl
  · exact List.mem_append_left _ (h.settled m d hm hd hedge hne hwaits)
  · exact List.Nodup.append h.nodup (List.nodup_singleton _)
      (List.disjoint_singleton.mpr hnew)
  · rcases append_split hsplit with ⟨heq, rfl⟩ | ⟨after', hold⟩
    · cases heq
      exact ⟨hnot, hsettled⟩
    · exact h.order before m after' hold

theorem Logged.ret (h : Logged nodes getEdges r) (hwaiting : Waiting nodes getEdges r)
    (hn : r.stage n = some .processing) :
    Logged nodes getEdges
      ({ r with log := r.log ++ [NodeEvent.returned n] }.put n (some .processed)) := by
  obtain ⟨hleft, -⟩ := hwaiting.held n _ hn
  have hnew : .returned n ∉ r.log := by
    intro hmem
    rcases ((h.returned n).mp hmem).2 with hgone | hany
    · exact hgone hleft
    · rw [hn] at hany
      cases hany
  refine ⟨fun m => ?_, fun m => ?_, fun m d hm hd hedge hne hwaits => ?_, ?_,
    fun before m after hsplit => ?_⟩
  · show NodeEvent.called m ∈ r.log ++ [NodeEvent.returned n] ↔ _
    rw [List.mem_append, List.mem_singleton, h.called]
    refine (or_iff_left fun heq => (by cases heq)).trans (and_congr_right fun _ => ?_)
    refine Iff.symm (passed_congr rfl (any_put ?_ m))
    show _ = Option.any _ (r.stage n)
    rw [hn]
    rfl
  · show NodeEvent.returned m ∈ r.log ++ [NodeEvent.returned n] ↔ _
    rw [List.mem_append, List.mem_singleton, h.returned, NodeEvent.returned.injEq]
    unfold Passed
    rw [stage_put]
    split
    · next heq =>
        rw [heq]
        exact iff_of_true (Or.inr rfl) ⟨hwaiting.left_nodes hleft, Or.inr rfl⟩
    · next hne => exact or_iff_left hne
  · exact List.mem_append_left _ (h.settled m d hm hd hedge hne hwaits)
  · exact List.Nodup.append h.nodup (List.nodup_singleton _)
      (List.disjoint_singleton.mpr hnew)
  · rcases append_split hsplit with ⟨heq, -⟩ | ⟨after', hold⟩
    · cases heq
    · exact h.order before m after' hold

-- ============================================================================
-- Section 4: Every run of the workers
-- ============================================================================

/-- What holds of the nodes on every schedule. -/
structure Inv (nodes : Finset α) (getEdges : α → Finset α) (r : Roster α) : Prop where
  waiting : Waiting nodes getEdges r
  logged : Logged nodes getEdges r

/-- All nodes are handed out at the start. -/
theorem inv_initial (nodes : Finset α) (getEdges : α → Finset α) (hardwareConcurrency : Nat) :
    Inv nodes getEdges {
      graph := (ProcessGraph.initial nodes hardwareConcurrency).graph
      locked := false
      stage := fun n => if n ∈ nodes then some .start else none
      log := [] } := by
  have hstage : ∀ n p, (if n ∈ nodes then some WorkerPoint.start else none : Option
      (WorkerPoint α)) = some p → n ∈ nodes ∧ p = .start := by
    intro n p hn
    split at hn
    · next hmem =>
        cases hn
        exact ⟨hmem, rfl⟩
    · cases hn
  have hpassed : ∀ (f : WorkerPoint α → Bool), f .start = false → ∀ n, ¬ (n ∈ nodes ∧
      (n ∉ nodes ∨ (if n ∈ nodes then some WorkerPoint.start else none).any f = true)) := by
    rintro f hf n ⟨hmem, hgone | hany⟩
    · exact hgone hmem
    · rw [if_pos hmem, Option.any_some, hf] at hany
      cases hany
  refine ⟨⟨fun n hn => hn, fun n hn => absurd rfl hn, fun n d hnd => ?_, fun n p hn => ?_,
    fun n hn hnone => ?_, fun d _ n => ?_, fun d l hd => ?_, fun h => (by cases h)⟩,
    ⟨fun n => ?_, fun n => ?_, fun n d hn => absurd rfl hn, List.nodup_nil, fun _ _ _ h => ?_⟩⟩
  · exact absurd hnd (Finset.notMem_empty d)
  · obtain ⟨hmem, rfl⟩ := hstage n p hn
    exact ⟨hmem, Or.inl rfl⟩
  · have hsome : (if n ∈ nodes then some WorkerPoint.start else none : Option
        (WorkerPoint α)) = none := hnone
    rw [if_pos (show n ∈ nodes from hn)] at hsome
    cases hsome
  · exact iff_of_false (Finset.notMem_empty n) (Finset.notMem_empty d)
  · cases (hstage d _ hd).2
  · exact iff_of_false List.not_mem_nil (hpassed _ rfl n)
  · exact iff_of_false List.not_mem_nil (hpassed _ rfl n)
  · exact absurd h (by simp)

/-- Each step of a worker keeps the invariant. -/
theorem inv_step {r' : Roster α} (h : Inv nodes getEdges r) (hstep : Step getEdges r r') :
    Inv nodes getEdges r' := by
  obtain ⟨hwaiting, hlogged⟩ := h
  cases hstep with
  | look hn hfree =>
      refine ⟨hwaiting.goOn hn rfl ?_ ?_ r.log, hlogged.look hn⟩
      · split <;> rfl
      · have hfits := (hwaiting.held _ _ hn).2
        split
        · next hnone => exact Option.isNone_iff_eq_none.mp hnone
        · next hsome =>
            exact hfits.resolve_left fun hnone => hsome (Option.isNone_iff_eq_none.mpr hnone)
  | register hn hfree hgraph =>
      exact ⟨hwaiting.register hn hfree hgraph, hlogged.register hn hgraph⟩
  | call hn =>
      have hfits : Fits _ .processing := (hwaiting.held _ _ hn).2
      exact ⟨hwaiting.goOn hn rfl rfl hfits _, hlogged.call hwaiting hn⟩
  | ret hn =>
      have hfits : Fits _ .processed := (hwaiting.held _ _ hn).2
      exact ⟨hwaiting.goOn hn rfl rfl hfits _, hlogged.ret hwaiting hn⟩
  | lock hn hfree => exact ⟨hwaiting.lock hn hfree, hlogged.lock hn _⟩
  | retire hn hgraph =>
      exact ⟨hwaiting.retire hn hgraph, hlogged.retire hwaiting hn hgraph⟩
  | leave hn => exact ⟨hwaiting.leave hn, hlogged.leave hn⟩

omit [LinearOrder α] in
/-- The loop that retires a node does not fail. -/
theorem Waiting.mem_retiring (h : Waiting nodes getEdges r) {rrefs : List α}
    (hn : r.stage n = some (.retiring (m :: rrefs))) : n ∈ r.graph.refsOf m :=
  ((h.retiring n _ hn).2.2 m).mp List.mem_cons_self

omit [LinearOrder α] in
/-- A call has been preceded by the return of everything the node depends on, and
    not by its own. -/
theorem Logged.idxOf_lt [DecidableEq α] (h : Logged nodes getEdges r) (hn : .returned n ∈ r.log)
    (hd : d ∈ nodes) (hedge : d ∈ getEdges n) (hne : d ≠ n) :
    r.log.idxOf (.returned d) < r.log.idxOf (.returned n) := by
  have hnodes := (h.returned n).mp hn
  have hcalled : .called n ∈ r.log := by
    refine (h.called n).mpr ⟨hnodes.1, hnodes.2.imp_right fun hany => ?_⟩
    obtain ⟨p, hp, hreturned⟩ := Option.any_eq_true _ _ |>.mp hany
    rw [hp]
    cases p <;> first | rfl | cases hreturned
  obtain ⟨before, after, hsplit⟩ := List.append_of_mem hcalled
  obtain ⟨hnot, hbefore⟩ := h.order before n after hsplit
  have hlt : before.idxOf (.returned d) < before.length :=
    List.idxOf_lt_length_of_mem (hbefore d hd hedge hne)
  rw [hsplit, List.idxOf_append_of_mem (hbefore d hd hedge hne), List.idxOf_append_of_notMem hnot]
  omega

/-- When nobody has a node in hands, nothing is left just if the graph has no
    cycle. -/
theorem Inv.left_eq_empty_iff (h : Inv nodes getEdges r) (hnone : ∀ n, r.stage n = none) :
    r.graph.left = ∅ ↔ Acyclic (InducedEdge nodes getEdges) := by
  constructor
  · intro hempty
    refine Acyclic.of_rank (fun n => r.log.idxOf (.returned n)) ?_
    rintro n d ⟨hn, hd, hedge⟩ hne
    refine h.logged.idxOf_lt (h.logged.returned_of_left hn ?_) hd hedge hne.symm
    rw [hempty]
    exact Finset.notMem_empty n
  · intro hacyclic
    by_contra hne
    obtain ⟨n, hn, hsink⟩ := hacyclic.exists_sink (Finset.nonempty_iff_ne_empty.mpr hne)
    obtain ⟨d, hd⟩ := h.waiting.waiting n hn (hnone n)
    obtain ⟨hdleft, hedge, hdn⟩ := h.waiting.waits n d hd
    refine hdn (hsink d hdleft ⟨?_, ?_, hedge⟩).symm
    · exact h.waiting.left_nodes hn
    · exact h.waiting.left_nodes hdleft

end Roster

end NixStore
