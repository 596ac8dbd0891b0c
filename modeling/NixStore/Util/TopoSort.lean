/-
  NixStore.Util.TopoSort

  The depth-first topological sort of `libutil/topo-sort.hh`.

  The function that lists an item's children may look at and change a state
  (the store looks them up through its cache), and may throw.  What it returns
  is therefore only known between two relations: every child is `upper`, and
  everything `lower` is a child.  A reported edge closes a cycle of `upper`, and
  a sorted list is sorted with respect to `lower` (`topoSort_closes`).

  The recursion of the source has no bound; that of the model has one, and
  `sortWith_iterate` says that nothing below it is ever called.
-/

import NixStore.Lib.OrderedSet
import NixStore.Lib.Effect
import NixStore.Lib.Acyclic
import Mathlib.Data.Finset.Card

namespace NixStore

open Relation OrderedSet Effect

/-- `Cycle`. -/
structure Cycle (α : Type) where
  path : α
  parent : α
deriving DecidableEq, Repr

namespace TopoSort

variable {ε σ α γ : Type} [LinearOrder α]

/-- The variables that `dfsVisit` captures. -/
structure Search (α : Type) where
  visited : Finset α
  parents : Finset α
  sorted : List α

/-- Visit the elements of a list one after another, up to the first that
    returns a cycle. -/
def visitEach {δ β : Type} (f : β → δ → EStateM ε σ (Except γ δ)) :
    List β → δ → EStateM ε σ (Except γ δ)
  | [], st => pure (.ok st)
  | i :: rest, st => do
      match ← f i st with
      | .error c => pure (.error c)
      | .ok st => visitEach f rest st

/-- `dfsVisit`.  The recursion goes one step deeper for every item that is
    put into `parents`, so the number of items bounds it. -/
def dfsVisit (items : Finset α) (getChildren : α → EStateM ε σ (List α)) :
    Nat → α → Option α → Search α → EStateM ε σ (Except (Cycle α) (Search α))
  | 0, _, _, st => pure (.ok st)
  | depth + 1, path, parent, st =>
      if path ∈ st.parents then pure (.error ⟨path, parent.getD path⟩)
      else if path ∈ st.visited then pure (.ok st)
      else do
        let references ← getChildren path
        let r ← visitEach
          (fun i st =>
            if i ≠ path ∧ i ∈ items then dfsVisit items getChildren depth i (some path) st
            else pure (.ok st))
          references
          { st with visited := insert path st.visited, parents := insert path st.parents }
        pure (r.map fun st =>
          { st with sorted := st.sorted ++ [path], parents := st.parents.erase path })

/-- `topoSort`. -/
def topoSort (items : Finset α) (getChildren : α → EStateM ε σ (List α)) :
    EStateM ε σ (Except (Cycle α) (List α)) := do
  let r ← visitEach (fun i st => dfsVisit items getChildren (items.card + 1) i none st)
    (inOrder items) { visited := ∅, parents := ∅, sorted := [] }
  pure (r.map fun st => st.sorted.reverse)

/-! ## What a search keeps -/

/-- How a visit ends: with a cycle or with a new state of the search. -/
def Ends {δ : Type} (C : γ → Prop) (J : δ → Prop) : Except γ δ → Prop
  | .error c => C c
  | .ok st => J st

theorem ends_map {δ δ' : Type} {C : γ → Prop} {J : δ → Prop} {J' : δ' → Prop} {f : δ → δ'}
    {r : Except γ δ} (h : Ends C J r) (hf : ∀ st, J st → J' (f st)) : Ends C J' (r.map f) := by
  cases r with
  | error c => exact h
  | ok st => exact hf st h

theorem visitEach_spec {δ β : Type} {P : σ → Prop} {E : ε → σ → Prop} {C : γ → Prop}
    {J : List β → δ → Prop} {f : β → δ → EStateM ε σ (Except γ δ)} (l : List β)
    (h : ∀ front a rest st, l = front ++ a :: rest → J front st →
      Spec P (f a st) (fun r s => P s ∧ Ends C (J (front ++ [a])) r) E)
    {st : δ} (hst : J [] st) :
    Spec P (visitEach f l st) (fun r s => P s ∧ Ends C (J l) r) E := by
  have hgo : ∀ rest front st, l = front ++ rest → J front st →
      Spec P (visitEach f rest st) (fun r s => P s ∧ Ends C (J l) r) E := by
    intro rest
    induction rest with
    | nil =>
        intro front st hl hJ
        rw [List.append_nil] at hl
        subst hl
        exact Spec.ret fun s hs => ⟨hs, hJ⟩
    | cons a rest ih =>
        intro front st hl hJ
        refine Spec.seq (h front a rest st hl hJ) ?_
        intro r
        cases r with
        | error c => exact Spec.ret fun s hs => hs
        | ok st' =>
            intro s hs
            refine ih (front ++ [a]) st' ?_ hs.2 s hs.1
            rw [hl, List.append_assoc, List.singleton_append]
  exact hgo l [] st rfl hst

/-- Every child of an item in `l` stands in front of it. -/
def ChildrenFirst (items : Finset α) (lower : α → α → Prop) (l : List α) : Prop :=
  ∀ front x rest, l = front ++ x :: rest → ∀ y ∈ items, lower x y → y ≠ x → y ∈ front

/-- The invariant of the search. -/
structure Search.Inv (items : Finset α) (lower : α → α → Prop) (st : Search α) : Prop where
  visited_subset : st.visited ⊆ items
  parents_subset : st.parents ⊆ st.visited
  mem_sorted : ∀ x, x ∈ st.sorted ↔ x ∈ st.visited ∧ x ∉ st.parents
  nodup : st.sorted.Nodup
  ordered : ChildrenFirst items lower st.sorted

/-- What a visit of `path` leaves behind when it finds no cycle. -/
structure Search.Visited (items : Finset α) (lower : α → α → Prop) (before : Search α)
    (targets : List α) (st : Search α) : Prop where
  inv : st.Inv items lower
  parents_eq : st.parents = before.parents
  visited_mono : before.visited ⊆ st.visited
  target_sorted : ∀ x ∈ targets, x ∈ items → x ∈ st.sorted

omit [LinearOrder α] in
theorem childrenFirst_append {items : Finset α} {lower : α → α → Prop} {l : List α} {path : α}
    (hl : ChildrenFirst items lower l)
    (hpath : ∀ y ∈ items, lower path y → y ≠ path → y ∈ l) :
    ChildrenFirst items lower (l ++ [path]) := by
  intro front x rest heq
  rcases List.eq_nil_or_concat' rest with rfl | ⟨rest', z, rfl⟩
  · obtain ⟨rfl, hx⟩ := List.append_inj' heq rfl
    cases hx
    exact hpath
  · have heq' : l ++ [path] = (front ++ x :: rest') ++ [z] := by
      rw [heq, List.append_assoc, List.cons_append]
    exact hl front x rest' (List.append_inj' heq' rfl).1

namespace Search

variable {items : Finset α} {lower : α → α → Prop} {st : Search α} {path : α}

/-- Entering an item. -/
theorem Inv.enter (h : st.Inv items lower) (hpath : path ∈ items) (hnew : path ∉ st.visited) :
    Inv items lower
      { st with visited := insert path st.visited, parents := insert path st.parents } where
  visited_subset := Finset.insert_subset hpath h.visited_subset
  parents_subset := Finset.insert_subset_insert _ h.parents_subset
  mem_sorted := by
    intro x
    rw [h.mem_sorted, Finset.mem_insert, Finset.mem_insert]
    constructor
    · rintro ⟨hv, hp⟩
      refine ⟨Or.inr hv, ?_⟩
      rintro (rfl | hp')
      · exact hnew hv
      · exact hp hp'
    · rintro ⟨hv, hp⟩
      exact ⟨hv.resolve_left fun heq => hp (Or.inl heq), fun h => hp (Or.inr h)⟩
  nodup := h.nodup
  ordered := h.ordered

/-- Leaving an item whose children are done. -/
theorem Inv.leave (h : st.Inv items lower) (hpath : path ∈ st.parents)
    (hchildren : ∀ y ∈ items, lower path y → y ≠ path → y ∈ st.sorted) :
    Inv items lower
      { st with sorted := st.sorted ++ [path], parents := st.parents.erase path } where
  visited_subset := h.visited_subset
  parents_subset := (Finset.erase_subset _ _).trans h.parents_subset
  mem_sorted := by
    intro x
    rw [List.mem_append, List.mem_singleton, h.mem_sorted, Finset.mem_erase]
    constructor
    · rintro (⟨hv, hp⟩ | rfl)
      · exact ⟨hv, fun h => hp h.2⟩
      · exact ⟨h.parents_subset hpath, fun h => h.1 rfl⟩
    · rintro ⟨hv, hp⟩
      by_cases heq : x = path
      · exact Or.inr heq
      · exact Or.inl ⟨hv, fun h => hp ⟨heq, h⟩⟩
  nodup := by
    rw [← List.concat_eq_append, List.nodup_concat, h.mem_sorted]
    exact ⟨fun hmem => hmem.2 hpath, h.nodup⟩
  ordered := childrenFirst_append h.ordered hchildren

omit [LinearOrder α] in
theorem Visited.sorted_mono {before : Search α} {targets : List α}
    (hbefore : before.Inv items lower) (h : Visited items lower before targets st) {x : α}
    (hx : x ∈ before.sorted) : x ∈ st.sorted := by
  obtain ⟨hv, hp⟩ := (hbefore.mem_sorted x).mp hx
  exact (h.inv.mem_sorted x).mpr ⟨h.visited_mono hv, h.parents_eq.symm ▸ hp⟩

omit [LinearOrder α] in
theorem Visited.self (h : st.Inv items lower) : Visited items lower st [] st :=
  ⟨h, rfl, Finset.Subset.refl _, fun _ hx => absurd hx List.not_mem_nil⟩

omit [LinearOrder α] in
/-- A further target, visited by the same search. -/
theorem Visited.step {before st' : Search α} {targets : List α} {x : α}
    (h : Visited items lower before targets st) (h' : Visited items lower st [x] st') :
    Visited items lower before (targets ++ [x]) st' where
  inv := h'.inv
  parents_eq := h'.parents_eq.trans h.parents_eq
  visited_mono := h.visited_mono.trans h'.visited_mono
  target_sorted := by
    intro y hy hitems
    rcases List.mem_append.mp hy with hy | hy
    · exact h'.sorted_mono h.inv (h.target_sorted y hy hitems)
    · exact h'.target_sorted y hy hitems

end Search

/-! ## The visit -/

/-- An item that is put on the stack leaves one less for the rest of the depth. -/
theorem card_sdiff_insert_lt {items stack : Finset α} {path : α} {depth : Nat}
    (hpath : path ∈ items) (hnew : path ∉ stack) (hdepth : (items \ stack).card < depth + 1) :
    (items \ insert path stack).card < depth := by
  have hlt : (items \ insert path stack).card < (items \ stack).card := by
    apply Finset.card_lt_card
    refine ⟨Finset.sdiff_subset_sdiff (Finset.Subset.refl _) (Finset.subset_insert _ _), ?_⟩
    intro hsub
    have hmem := hsub (Finset.mem_sdiff.mpr ⟨hpath, hnew⟩)
    exact (Finset.mem_sdiff.mp hmem).2 (Finset.mem_insert_self _ _)
  omega

section Visit

variable {items : Finset α} {lower upper : α → α → Prop} {P : σ → Prop} {E : ε → σ → Prop}
  {getChildren : α → EStateM ε σ (List α)}

/-- The edges between items. -/
abbrev ItemEdge (items : Finset α) (upper : α → α → Prop) (a b : α) : Prop :=
  upper a b ∧ a ∈ items ∧ b ∈ items

/-- A reported cycle lies on a cycle. -/
def OnCycle (items : Finset α) (upper : α → α → Prop) (c : Cycle α) : Prop :=
  TransGen (ProperEdge (ItemEdge items upper)) c.path c.path

/-- A reported edge is an edge between two items that closes a cycle. -/
structure ClosesCycle (items : Finset α) (upper : α → α → Prop) (c : Cycle α) : Prop where
  edge : ProperEdge (ItemEdge items upper) c.parent c.path
  returns : ReflTransGen (ProperEdge (ItemEdge items upper)) c.path c.parent

omit [LinearOrder α] in
theorem ClosesCycle.onCycle {c : Cycle α} (h : ClosesCycle items upper c) :
    OnCycle items upper c := TransGen.tail' h.returns h.edge

/-- Where a visit of `path` comes from: the loop over the items, with nothing on
    the stack, or an item below which everything on the stack leads. -/
def CalledFrom (items : Finset α) (upper : α → α → Prop) (stack : Finset α) (path : α) :
    Option α → Prop
  | none => stack = ∅
  | some parent => ProperEdge (ItemEdge items upper) parent path ∧
      ∀ x ∈ stack, ReflTransGen (ProperEdge (ItemEdge items upper)) x parent

omit [LinearOrder α] in
/-- An item on the stack is reached again only from one below it. -/
theorem CalledFrom.closesCycle {stack : Finset α} {path : α} {parent : Option α}
    (h : CalledFrom items upper stack path parent) (hpath : path ∈ stack) :
    ClosesCycle items upper ⟨path, parent.getD path⟩ := by
  cases parent with
  | none =>
      rw [show stack = ∅ from h] at hpath
      exact absurd hpath (Finset.notMem_empty path)
  | some parent => exact ⟨h.1, h.2 path hpath⟩

/-- A child of a visited item is below the whole stack, the item included. -/
theorem CalledFrom.child {stack : Finset α} {path i : α} {parent : Option α}
    (h : CalledFrom items upper stack path parent)
    (hedge : ProperEdge (ItemEdge items upper) path i) :
    CalledFrom items upper (insert path stack) i (some path) := by
  refine ⟨hedge, fun x hx => ?_⟩
  rcases Finset.mem_insert.mp hx with rfl | hx
  · exact ReflTransGen.refl
  · cases parent with
    | none =>
        rw [show stack = ∅ from h] at hx
        exact absurd hx (Finset.notMem_empty x)
    | some parent => exact (h.2 x hx).tail h.1

/-- The loop over an item's children, given what one visit does. -/
theorem visitChildren_spec {C : Cycle α → Prop} {path : α} {before : Search α}
    {visit : α → Search α → EStateM ε σ (Except (Cycle α) (Search α))} (references : List α)
    (hbefore : before.Inv items lower)
    (hvisit : ∀ i st, i ∈ references → i ≠ path → i ∈ items → st.Inv items lower →
      st.parents = before.parents →
      Spec P (visit i st) (fun r s => P s ∧ Ends C (Search.Visited items lower st [i]) r) E) :
    Spec P
      (visitEach (fun i st => if i ≠ path ∧ i ∈ items then visit i st else pure (.ok st))
        references before)
      (fun r s => P s ∧
        Ends C (Search.Visited items lower before (references.filter (· ≠ path))) r) E := by
  refine visitEach_spec references
    (J := fun front => Search.Visited items lower before (front.filter (· ≠ path))) ?_
    (Search.Visited.self hbefore)
  intro front i rest st hl hst
  have hi : i ∈ references := hl ▸ List.mem_append_right _ List.mem_cons_self
  rw [List.filter_append]
  refine Spec.cond ?_ ?_
  · rintro ⟨hne, hitems⟩
    refine (hvisit i st hi hne hitems hst.inv hst.parents_eq).weaken (fun _ h => h) ?_
      fun _ _ h => h
    rintro r s ⟨hs, hr⟩
    refine ⟨hs, ?_⟩
    cases r with
    | error c => exact hr
    | ok st' =>
        have hkept : [i].filter (· ≠ path) = [i] := by simp [hne]
        rw [hkept]
        exact hst.step hr
  · -- a child that is skipped is the item itself, or none of the items
    intro hskip
    refine Spec.ret fun s hs => ⟨hs, hst.inv, hst.parents_eq, hst.visited_mono, ?_⟩
    intro x hx hitems
    rcases List.mem_append.mp hx with hx | hx
    · exact hst.target_sorted x hx hitems
    · obtain ⟨hx, hne⟩ := List.mem_filter.mp hx
      rw [List.mem_singleton.mp hx] at hne hitems
      exact absurd ⟨by simpa using hne, hitems⟩ hskip

/-- One visit: a reported edge closes a cycle, and otherwise the item and all
    that was reached from it are sorted. -/
theorem dfsVisit_spec
    (hchildren : ∀ x ∈ items, Spec P (getChildren x)
      (fun l s => P s ∧ (∀ y ∈ l, upper x y) ∧ ∀ y, lower x y → y ∈ l) E)
    (depth : Nat) (path : α) (parent : Option α) (st : Search α) (hpath : path ∈ items)
    (hdepth : (items \ st.parents).card < depth) (hst : st.Inv items lower)
    (hfrom : CalledFrom items upper st.parents path parent) :
    Spec P (dfsVisit items getChildren depth path parent st)
      (fun r s => P s ∧
        Ends (ClosesCycle items upper) (Search.Visited items lower st [path]) r) E := by
  -- the depth left is above the number of items that are not parents
  induction depth generalizing path parent st with
  | zero => omega
  | succ depth ih =>
      unfold dfsVisit
      refine Spec.cond (fun hcycle => Spec.ret fun s hs => ⟨hs, hfrom.closesCycle hcycle⟩) ?_
      intro hparent
      refine Spec.cond (fun hvisited => Spec.ret fun s hs => ⟨hs, ?_⟩) ?_
      · refine ⟨hst, rfl, Finset.Subset.refl _, ?_⟩
        intro x hx _
        rw [List.mem_singleton.mp hx]
        exact (hst.mem_sorted path).mpr ⟨hvisited, hparent⟩
      intro hnew
      have hcard := card_sdiff_insert_lt hpath hparent hdepth
      refine Spec.seq (hchildren path hpath) ?_
      rintro references s₀ ⟨hP, hupper, hlower⟩
      refine Spec.seq (visitChildren_spec (C := ClosesCycle items upper) references
        (hst.enter hpath hnew) ?_) ?_ s₀ hP
      · intro i st' hi hne hitems hinv hparents
        refine ih i (some path) st' hitems (hparents.symm ▸ hcard) hinv ?_
        rw [hparents]
        exact hfrom.child ⟨⟨hupper i hi, hpath, hitems⟩, hne.symm⟩
      · intro r
        refine Spec.ret fun s hs => ⟨hs.1, ends_map hs.2 ?_⟩
        intro st' hst'
        have hin : path ∈ st'.parents := by
          rw [hst'.parents_eq]
          exact Finset.mem_insert_self _ _
        refine ⟨hst'.inv.leave hin ?_, ?_, (Finset.subset_insert _ _).trans hst'.visited_mono, ?_⟩
        · intro y hy hlow hne
          exact hst'.target_sorted y (List.mem_filter.mpr ⟨hlower y hlow, by simpa using hne⟩) hy
        · show st'.parents.erase path = st.parents
          rw [hst'.parents_eq]
          exact Finset.erase_insert hparent
        · intro x hx _
          rw [List.mem_singleton.mp hx]
          exact List.mem_append_right _ (List.mem_singleton.mpr rfl)

/-- What the sort returns: the items, each in front of its children. -/
structure Sorted (items : Finset α) (lower : α → α → Prop) (sorted : List α) : Prop where
  nodup : sorted.Nodup
  mem_iff : ∀ x, x ∈ sorted ↔ x ∈ items
  parentsFirst : ∀ front x rest, sorted = front ++ x :: rest →
    ∀ y ∈ items, lower x y → y ≠ x → y ∈ rest

/-- The sort returns an edge that closes a cycle among the items, or the items in
    order. -/
theorem topoSort_closes (lower upper : α → α → Prop)
    (hchildren : ∀ x ∈ items, Spec P (getChildren x)
      (fun l s => P s ∧ (∀ y ∈ l, upper x y) ∧ ∀ y, lower x y → y ∈ l) E) :
    Spec P (topoSort items getChildren)
      (fun r s => P s ∧ Ends (ClosesCycle items upper) (Sorted items lower) r) E := by
  have hinit : Search.Inv items lower { visited := ∅, parents := ∅, sorted := [] } := by
    refine ⟨Finset.empty_subset _, Finset.empty_subset _, ?_, List.nodup_nil, ?_⟩
    · simp
    · intro front x rest h
      simp at h
  refine Spec.seq (visitEach_spec (C := ClosesCycle items upper) (inOrder items)
    (J := fun front => Search.Visited items lower { visited := ∅, parents := ∅, sorted := [] }
      front) ?_ (Search.Visited.self hinit)) ?_
  · intro front i rest st hl hst
    have hi : i ∈ items := mem_inOrder.mp (hl ▸ List.mem_append_right _ List.mem_cons_self)
    have hnone : st.parents = ∅ := hst.parents_eq
    refine (dfsVisit_spec hchildren (items.card + 1) i none st hi ?_ hst.inv ?_).weaken
      (fun _ h => h) ?_ fun _ _ h => h
    · have := Finset.card_le_card (Finset.sdiff_subset (s := items) (t := st.parents))
      omega
    · exact hnone
    · rintro r s ⟨hs, hr⟩
      refine ⟨hs, ?_⟩
      cases r with
      | error c => exact hr
      | ok st' => exact hst.step hr
  · intro r
    refine Spec.ret fun s hs => ⟨hs.1, ends_map hs.2 ?_⟩
    intro st hst
    have hmem : ∀ x, x ∈ st.sorted ↔ x ∈ items := by
      intro x
      refine ⟨fun hx => hst.inv.visited_subset ((hst.inv.mem_sorted x).mp hx).1, fun hx => ?_⟩
      exact hst.target_sorted x (mem_inOrder.mpr hx) hx
    refine ⟨List.nodup_reverse.mpr hst.inv.nodup, fun x => List.mem_reverse.trans (hmem x), ?_⟩
    intro front x rest heq y hy hlow hne
    have hrev : st.sorted = rest.reverse ++ x :: front.reverse := by
      rw [← List.reverse_reverse st.sorted, heq]
      simp
    exact List.mem_reverse.mp (hst.inv.ordered _ x _ hrev y hy hlow hne)

/-- The sort returns a cycle among the items or the items in order. -/
theorem topoSort_spec (lower upper : α → α → Prop)
    (hchildren : ∀ x ∈ items, Spec P (getChildren x)
      (fun l s => P s ∧ (∀ y ∈ l, upper x y) ∧ ∀ y, lower x y → y ∈ l) E) :
    Spec P (topoSort items getChildren)
      (fun r s => P s ∧ Ends (OnCycle items upper) (Sorted items lower) r) E := by
  refine (topoSort_closes lower upper hchildren).weaken (fun _ h => h) ?_ fun _ _ h => h
  rintro r s ⟨hs, hr⟩
  refine ⟨hs, ?_⟩
  cases r with
  | error c => exact hr.onCycle
  | ok l => exact hr

omit [LinearOrder α] in
/-- What refers to an item stands in front of it. -/
theorem Sorted.mem_front {sorted front rest : List α} {x y : α} (h : Sorted items lower sorted)
    (hsplit : sorted = front ++ x :: rest) (hy : y ∈ items) (hlow : lower y x) (hne : y ≠ x) :
    y ∈ front := by
  have hx : x ∈ items := (h.mem_iff x).mp (hsplit ▸ List.mem_append_right _ List.mem_cons_self)
  have hmem := (h.mem_iff y).mpr hy
  rw [hsplit, List.mem_append, List.mem_cons] at hmem
  rcases hmem with hmem | rfl | hmem
  · exact hmem
  · exact absurd rfl hne
  · -- behind the item it would be behind itself
    obtain ⟨before, after, rfl⟩ := List.append_of_mem hmem
    have hback := h.parentsFirst (front ++ x :: before) y after
      (by rw [hsplit, List.append_assoc, List.cons_append]) x hx hlow (Ne.symm hne)
    have hnodup := h.nodup
    rw [hsplit, List.nodup_append, List.nodup_cons] at hnodup
    exact absurd (List.mem_append_right _ (List.mem_cons_of_mem _ hback)) hnodup.2.1.1

/-- A graph whose items can be sorted has no cycle among them. -/
theorem Sorted.acyclic {sorted : List α} (h : Sorted items lower sorted) :
    Acyclic (ItemEdge items lower) := by
  refine Acyclic.of_rank (fun x => sorted.length - sorted.idxOf x) ?_
  rintro a b ⟨hab, ha, hb⟩ hne
  obtain ⟨front, rest, hsplit⟩ := List.append_of_mem ((h.mem_iff a).mpr ha)
  have hbrest : b ∈ rest := h.parentsFirst front a rest hsplit b hb hab hne.symm
  have hnodup := h.nodup
  rw [hsplit, List.nodup_append, List.nodup_cons] at hnodup
  have hafront : a ∉ front := fun hmem => hnodup.2.2 a hmem a List.mem_cons_self rfl
  have hbfront : b ∉ front := fun hmem =>
    hnodup.2.2 b hmem b (List.mem_cons_of_mem _ hbrest) rfl
  have hlt : rest.idxOf b < rest.length := List.idxOf_lt_length_of_mem hbrest
  simp only [hsplit, List.idxOf_append_of_notMem hafront, List.idxOf_append_of_notMem hbfront,
    List.idxOf_cons_self, List.idxOf_cons_ne rest hne, List.length_append, List.length_cons]
  omega

end Visit

/-! ## Termination -/

section Termination

variable {items : Finset α} {getChildren : α → EStateM ε σ (List α)}

/-- The type of `dfsVisit` in the source, without a bound on the depth. -/
abbrev Visit (ε σ α : Type) := α → Option α → Search α → EStateM ε σ (Except (Cycle α) (Search α))

/-- The body of `dfsVisit`, over what a recursive call does. -/
def visitWith (items : Finset α) (getChildren : α → EStateM ε σ (List α)) (call : Visit ε σ α) :
    Visit ε σ α := fun path parent st =>
  if path ∈ st.parents then pure (.error ⟨path, parent.getD path⟩)
  else if path ∈ st.visited then pure (.ok st)
  else do
    let references ← getChildren path
    let r ← visitEach
      (fun i st =>
        if i ≠ path ∧ i ∈ items then call i (some path) st else pure (.ok st))
      references
      { st with visited := insert path st.visited, parents := insert path st.parents }
    pure (r.map fun st =>
      { st with sorted := st.sorted ++ [path], parents := st.parents.erase path })

/-- The loop over the items, over what a visit does. -/
def sortWith (items : Finset α) (call : Visit ε σ α) :
    EStateM ε σ (Except (Cycle α) (List α)) := do
  let r ← visitEach (fun i st => call i none st)
    (inOrder items) { visited := ∅, parents := ∅, sorted := [] }
  pure (r.map fun st => st.sorted.reverse)

theorem dfsVisit_succ (depth : Nat) : dfsVisit items getChildren (depth + 1)
    = visitWith items getChildren (dfsVisit items getChildren depth) := rfl

theorem topoSort_eq_sortWith : topoSort items getChildren
    = sortWith items (dfsVisit items getChildren (items.card + 1)) := rfl

/-- The visit leaves the stack as it found it. -/
abbrev KeepsStack (visit : EStateM ε σ (Except (Cycle α) (Search α))) (stack : Finset α) : Prop :=
  Spec (fun _ => True) visit
    (fun r _ => True ∧ Ends (fun _ => True) (fun st => st.parents = stack) r) (fun _ _ => True)

theorem dfsVisit_keepsStack (depth : Nat) (path : α) (parent : Option α) (st : Search α) :
    KeepsStack (dfsVisit items getChildren depth path parent st) st.parents := by
  induction depth generalizing path parent st with
  | zero => exact Spec.ret fun _ _ => ⟨trivial, rfl⟩
  | succ depth ih =>
      unfold dfsVisit
      refine Spec.cond (fun _ => Spec.ret fun _ _ => ⟨trivial, trivial⟩) fun hparent => ?_
      refine Spec.cond (fun _ => Spec.ret fun _ _ => ⟨trivial, rfl⟩) fun _ => ?_
      refine Spec.seq (Q := fun _ _ => True) ?_ fun references => ?_
      · intro s _
        cases getChildren path s with
        | ok l s' => trivial
        | error e s' => trivial
      · refine Spec.seq (visitEach_spec (C := fun _ => True) references
          (J := fun _ st' => st'.parents = insert path st.parents) ?_ rfl) fun r => ?_
        · intro front i rest st' _ hst'
          refine Spec.cond (fun _ => ?_) fun _ => Spec.ret fun _ _ => ⟨trivial, hst'⟩
          rw [← hst']
          exact ih i (some path) st'
        · refine Spec.ret fun s hs => ⟨trivial, ends_map hs.2 ?_⟩
          intro st' hst'
          show st'.parents.erase path = st.parents
          rw [hst', Finset.erase_insert hparent]

omit [LinearOrder α] in
/-- Two ways to visit that agree on every search with the same stack. -/
theorem visitEach_congr {f g : α → Search α → EStateM ε σ (Except (Cycle α) (Search α))}
    (stack : Finset α) (l : List α)
    (h : ∀ i ∈ l, ∀ st, st.parents = stack → f i st = g i st ∧ KeepsStack (f i st) stack)
    (st : Search α) (hst : st.parents = stack) : visitEach f l st = visitEach g l st := by
  induction l generalizing st with
  | nil => rfl
  | cons i rest ih =>
      obtain ⟨heq, hkeeps⟩ := h i List.mem_cons_self st hst
      funext s
      rw [visitEach, visitEach, ← heq, bind_run, bind_run]
      cases hrun : f i st s with
      | error e s' => rfl
      | ok r s' =>
          cases r with
          | error c => rfl
          | ok st' =>
              have hst' : st'.parents = stack := (hkeeps.of_ok trivial hrun).2
              exact congrFun (ih (fun j hj => h j (List.mem_cons_of_mem _ hj)) st' hst') s'

/-- A visit never nests deeper than there are items off the stack, so what a
    call below that depth would do does not matter. -/
theorem dfsVisit_eq_iterate (deeper : Visit ε σ α) (depth : Nat) (path : α) (parent : Option α)
    (st : Search α) (hpath : path ∈ items) (hdepth : (items \ st.parents).card < depth) :
    (visitWith items getChildren)^[depth] deeper path parent st
      = dfsVisit items getChildren depth path parent st := by
  -- the depth left is above the number of items that are not on the stack
  induction depth generalizing path parent st with
  | zero => omega
  | succ depth ih =>
      rw [Function.iterate_succ_apply', dfsVisit_succ, visitWith, visitWith]
      by_cases hparent : path ∈ st.parents
      · rw [if_pos hparent, if_pos hparent]
      · rw [if_neg hparent, if_neg hparent]
        have hcard := card_sdiff_insert_lt hpath hparent hdepth
        have hloop : ∀ references : List α,
            visitEach (fun i st => if i ≠ path ∧ i ∈ items then
                (visitWith items getChildren)^[depth] deeper i (some path) st
              else pure (.ok st)) references
              { st with visited := insert path st.visited, parents := insert path st.parents }
            = visitEach (fun i st => if i ≠ path ∧ i ∈ items then
                dfsVisit items getChildren depth i (some path) st
              else pure (.ok st)) references
              { st with visited := insert path st.visited, parents := insert path st.parents } := by
          intro references
          refine visitEach_congr (insert path st.parents) references ?_ _ rfl
          intro i _ st' hst'
          by_cases hi : i ≠ path ∧ i ∈ items
          · rw [if_pos hi, if_pos hi, ih i (some path) st' hi.2 (hst'.symm ▸ hcard)]
            refine ⟨rfl, ?_⟩
            rw [← hst']
            exact dfsVisit_keepsStack depth i (some path) st'
          · rw [if_neg hi, if_neg hi]
            exact ⟨rfl, Spec.ret fun _ _ => ⟨trivial, hst'⟩⟩
        simp only [hloop]

/-- The sort does not depend on what a call nested deeper than the number of
    items would do: there is none. -/
theorem sortWith_iterate (deeper : Visit ε σ α) :
    sortWith items ((visitWith items getChildren)^[items.card + 1] deeper)
      = topoSort items getChildren := by
  have hloop : visitEach
      (fun i st => (visitWith items getChildren)^[items.card + 1] deeper i none st)
        (inOrder items) { visited := ∅, parents := ∅, sorted := [] }
      = visitEach (fun i st => dfsVisit items getChildren (items.card + 1) i none st)
        (inOrder items) { visited := ∅, parents := ∅, sorted := [] } := by
    refine visitEach_congr ∅ _ ?_ _ rfl
    intro i hi st hst
    have hcard := Finset.card_le_card (Finset.sdiff_subset (s := items) (t := st.parents))
    rw [dfsVisit_eq_iterate deeper (items.card + 1) i none st (mem_inOrder.mp hi) (by omega)]
    refine ⟨rfl, ?_⟩
    rw [← hst]
    exact dfsVisit_keepsStack _ i none st
  rw [sortWith, hloop, topoSort_eq_sortWith, sortWith]

end Termination

/-! ## Sorting by a function -/

/-- The children that a function without effects gives, as a relation. -/
abbrev ChildOf (getChildren : α → Finset α) (x y : α) : Prop := y ∈ getChildren x

/-- The sort decides whether the items have a cycle: without one it returns the
    items in order, with one an edge that closes one.  No call nests deeper
    than there are items. -/
theorem topoSort_correct (items : Finset α) (getChildren : α → Finset α) (s : σ) :
    (∀ deeper : Visit ε σ α,
      sortWith items
        ((visitWith items fun x => pure (inOrder (getChildren x)))^[items.card + 1] deeper)
        = topoSort items fun x => pure (inOrder (getChildren x))) ∧
    ∃ r, (topoSort items fun x => (pure (inOrder (getChildren x)) : EStateM ε σ (List α))) s
        = .ok r s ∧
      (Acyclic (ItemEdge items (ChildOf getChildren)) →
        ∃ l, r = .ok l ∧ Sorted items (ChildOf getChildren) l) ∧
      (¬ Acyclic (ItemEdge items (ChildOf getChildren)) →
        ∃ c, r = .error c ∧ ClosesCycle items (ChildOf getChildren) c) := by
  refine ⟨fun deeper => sortWith_iterate deeper, ?_⟩
  have hspec : Run s (topoSort items fun x => (pure (inOrder (getChildren x)) :
      EStateM ε σ (List α)))
      (fun r s' => s' = s ∧ Ends (ClosesCycle items (ChildOf getChildren))
        (Sorted items (ChildOf getChildren)) r) (fun _ _ => False) := by
    refine topoSort_closes (ChildOf getChildren) (ChildOf getChildren) fun x _ => ?_
    exact Spec.ret fun s' hs' => ⟨hs', fun y hy => mem_inOrder.mp hy, fun y hy => mem_inOrder.mpr hy⟩
  cases hrun : (topoSort items fun x => (pure (inOrder (getChildren x)) :
      EStateM ε σ (List α))) s with
  | error e s' => exact (hspec.of_error rfl hrun).elim
  | ok r s' =>
      obtain ⟨rfl, hr⟩ := hspec.of_ok rfl hrun
      refine ⟨r, rfl, ?_, ?_⟩
      · intro hacyclic
        cases r with
        | ok l => exact ⟨l, rfl, hr⟩
        | error c => exact absurd hr.onCycle (hacyclic _)
      · intro hcyclic
        cases r with
        | ok l => exact absurd hr.acyclic hcyclic
        | error c => exact ⟨c, rfl, hr⟩

end TopoSort
end NixStore
