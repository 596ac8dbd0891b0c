/-
  NixStore.Util.LruNodes

  `LRUCache` (`libutil/lru-cache.hh`) as the two structures it is made of: a
  map whose entries hold an iterator into a list, and a list whose nodes hold
  an iterator into the map.

  Iterators are addresses of nodes.  A cache is represented by a list of links
  (`Represents`), each a map entry and the list node that point at each other;
  every operation does to the links what the operation of the same name does to
  the pairs of `LruCache`.
-/

import NixStore.Util.LruCache
import NixStore.Util.Serialise

namespace NixStore

-- ============================================================================
-- The two structures
-- ============================================================================

/-- A node of `Data`: `it` is the list iterator in its `LRUIterator`. -/
structure MapNode (κ β : Type) where
  addr : Nat
  key : κ
  it : Nat
  value : β

/-- A node of `LRU`: its element is an iterator into the map. -/
structure ListNode where
  addr : Nat
  elem : Nat

/-- `LRUCache`.  No node has been allocated at `next` or behind it. -/
structure LruNodes (κ β : Type) where
  capacity : Nat
  data : List (MapNode κ β)
  lru : List ListNode
  next : Nat

namespace LruNodes

variable {κ β : Type}

/-- The constructor `LRUCache(size_t)`. -/
def empty (capacity : Nat) : LruNodes κ β := ⟨capacity, [], [], 0⟩

/-- `size`. -/
def size (c : LruNodes κ β) : Nat := c.data.length

/-- `promote`: the node is spliced to the end of the list. -/
def promote (c : LruNodes κ β) (it : Nat) : LruNodes κ β :=
  { c with lru := (c.lru.filter fun n => n.addr ≠ it) ++ c.lru.filter fun n => n.addr = it }

/-- "Retire the oldest item."  There has to be one. -/
def retireOldest (c : LruNodes κ β) : Except Error (LruNodes κ β) :=
  match c.lru with
  | [] => .error (.assertion "lru.begin() != lru.end()")
  | oldest :: rest =>
      .ok { c with data := c.data.filter (fun m => m.addr ≠ oldest.elem), lru := rest }

/-- Make room in a full cache. -/
def makeRoom (c : LruNodes κ β) : Except Error (LruNodes κ β) :=
  if c.capacity ≤ c.size then c.retireOldest else .ok c

/-- `clear`. -/
def clear (c : LruNodes κ β) : LruNodes κ β := { c with data := [], lru := [] }

/-- A write through the pointer to the value of a map node. -/
def assign (c : LruNodes κ β) (addr : Nat) (value : β) : LruNodes κ β :=
  { c with data := c.data.map fun m => if m.addr = addr then { m with value } else m }

variable [DecidableEq κ]

/-- `data.find(key)`. -/
def find (c : LruNodes κ β) (key : κ) : Option (MapNode κ β) :=
  c.data.find? fun m => m.key = key

/-- `erase`. -/
def erase (c : LruNodes κ β) (key : κ) : Bool × LruNodes κ β :=
  match c.find key with
  | none => (false, c)
  | some i =>
      (true, { c with
        data := c.data.filter fun m => m.addr ≠ i.addr
        lru := c.lru.filter fun n => n.addr ≠ i.it })

/-- Put in a map node and a list node that point at each other. -/
def emplace (c : LruNodes κ β) (key : κ) (value : β) : Except Error (LruNodes κ β) := do
  throwIf (c.find key).isSome (.assertion "res.second")
  pure { c with
    data := ⟨c.next, key, c.next + 1, value⟩ :: c.data
    lru := c.lru ++ [⟨c.next + 1, c.next⟩]
    next := c.next + 2 }

/-- `upsert`. -/
def upsert (c : LruNodes κ β) (key : κ) (value : β) : Except Error (LruNodes κ β) :=
  if c.capacity = 0 then .ok c
  else do
    let c ← (c.erase key).2.makeRoom
    c.emplace key value

/-- `get`. -/
def get (c : LruNodes κ β) (key : κ) : Option β × LruNodes κ β :=
  match c.find key with
  | none => (none, c)
  | some i => (some i.value, c.promote i.it)

/-- `getOrNullptr`: the pointer is the address of the map node. -/
def getOrNullptr (c : LruNodes κ β) (key : κ) : Option Nat × LruNodes κ β :=
  match c.find key with
  | none => (none, c)
  | some i => (some i.addr, c.promote i.it)

/-- What a pointer to a value points at. -/
def deref (c : LruNodes κ β) (addr : Nat) : Option β :=
  (c.data.find? fun m => m.addr = addr).map fun m => m.value

-- ============================================================================
-- Links
-- ============================================================================

end LruNodes

/-- A map node and a list node that point at each other. -/
structure Link (κ β : Type) where
  entry : Nat
  node : Nat
  key : κ
  value : β

namespace Link

variable {κ β : Type}

/-- The map node of a link. -/
def mapNode (x : Link κ β) : MapNode κ β := ⟨x.entry, x.key, x.node, x.value⟩

/-- The list node of a link. -/
def listNode (x : Link κ β) : ListNode := ⟨x.node, x.entry⟩

/-- The pair that a link holds. -/
def pair (x : Link κ β) : κ × β := (x.key, x.value)

end Link

namespace LruNodes

variable {κ β : Type}

/-- The cache is made of these links, the oldest first. -/
structure Represents (c : LruNodes κ β) (l : List (Link κ β)) : Prop where
  data : c.data.Perm (l.map Link.mapNode)
  lru : c.lru = l.map Link.listNode
  keys : (l.map Link.key).Nodup
  entries : (l.map Link.entry).Nodup
  nodes : (l.map Link.node).Nodup
  fresh : ∀ x ∈ l, x.entry < c.next ∧ x.node < c.next
  size_le : l.length ≤ c.capacity

/-- Map entries and list nodes correspond one to one: each points at one that
    points back. -/
structure OneToOne (c : LruNodes κ β) : Prop where
  addrs : (c.data.map MapNode.addr).Nodup
  nodes : (c.lru.map ListNode.addr).Nodup
  toList : ∀ m ∈ c.data, ∃ n ∈ c.lru, n.addr = m.it ∧ n.elem = m.addr
  toMap : ∀ n ∈ c.lru, ∃ m ∈ c.data, m.addr = n.elem ∧ m.it = n.addr

theorem represents_empty (capacity : Nat) : Represents (empty capacity : LruNodes κ β) [] where
  data := List.Perm.nil
  lru := rfl
  keys := List.nodup_nil
  entries := List.nodup_nil
  nodes := List.nodup_nil
  fresh := nofun
  size_le := Nat.zero_le _

section Represents

variable {c : LruNodes κ β} {l : List (Link κ β)} (h : Represents c l)
include h

theorem Represents.length_data : c.size = l.length := by
  rw [size, h.data.length_eq, List.length_map]

theorem Represents.mem_data {m : MapNode κ β} : m ∈ c.data ↔ ∃ x ∈ l, x.mapNode = m := by
  rw [h.data.mem_iff, List.mem_map]

theorem Represents.oneToOne : OneToOne c where
  addrs := by
    rw [(h.data.map MapNode.addr).nodup_iff, List.map_map]
    exact h.entries
  nodes := by
    rw [h.lru, List.map_map]
    exact h.nodes
  toList := by
    intro m hm
    obtain ⟨x, hx, rfl⟩ := h.mem_data.mp hm
    exact ⟨x.listNode, by rw [h.lru]; exact List.mem_map_of_mem hx, rfl, rfl⟩
  toMap := by
    intro n hn
    rw [h.lru] at hn
    obtain ⟨x, hx, rfl⟩ := List.mem_map.mp hn
    exact ⟨x.mapNode, h.mem_data.mpr ⟨x, hx, rfl⟩, rfl, rfl⟩

/-- Links are told apart by their keys as by their nodes. -/
theorem Represents.node_eq_iff {x y : Link κ β} (hx : x ∈ l) (hy : y ∈ l) :
    x.node = y.node ↔ x.key = y.key :=
  ⟨fun heq => congrArg Link.key (List.inj_on_of_nodup_map h.nodes hx hy heq),
    fun heq => congrArg Link.node (List.inj_on_of_nodup_map h.keys hx hy heq)⟩

theorem Represents.entry_eq_iff {x y : Link κ β} (hx : x ∈ l) (hy : y ∈ l) :
    x.entry = y.entry ↔ x.key = y.key :=
  ⟨fun heq => congrArg Link.key (List.inj_on_of_nodup_map h.entries hx hy heq),
    fun heq => congrArg Link.entry (List.inj_on_of_nodup_map h.keys hx hy heq)⟩

variable [DecidableEq κ]

theorem Represents.find_eq_some {key : κ} {m : MapNode κ β} :
    c.find key = some m ↔ ∃ x ∈ l, x.key = key ∧ x.mapNode = m := by
  have hkeys : (c.data.map MapNode.key).Nodup := by
    rw [(h.data.map MapNode.key).nodup_iff, List.map_map]
    exact h.keys
  rw [find, SortedMap.find?_key hkeys, h.mem_data]
  constructor
  · rintro ⟨⟨x, hx, rfl⟩, hkey⟩
    exact ⟨x, hx, hkey, rfl⟩
  · rintro ⟨x, hx, hkey, rfl⟩
    exact ⟨⟨x, hx, rfl⟩, hkey⟩

theorem Represents.find_eq_none {key : κ} (hnone : c.find key = none) : ∀ x ∈ l, x.key ≠ key := by
  intro x hx hkey
  rw [h.find_eq_some.mpr ⟨x, hx, hkey, rfl⟩] at hnone
  cases hnone

/-- The list nodes but for that of one link. -/
theorem Represents.filter_lru {x : Link κ β} (hx : x ∈ l) :
    c.lru.filter (fun n => n.addr ≠ x.node)
      = (l.filter fun y => y.key ≠ x.key).map Link.listNode := by
  rw [h.lru, List.filter_map]
  apply congrArg
  apply List.filter_congr
  intro y hy
  exact decide_eq_decide.mpr (not_congr (h.node_eq_iff hy hx))

/-- The map nodes but for that of one link. -/
theorem Represents.filter_data {x : Link κ β} (hx : x ∈ l) :
    (c.data.filter fun m => m.addr ≠ x.entry).Perm
      ((l.filter fun y => y.key ≠ x.key).map Link.mapNode) := by
  have hfilter : (l.map Link.mapNode).filter (fun m => m.addr ≠ x.entry)
      = (l.filter fun y => y.key ≠ x.key).map Link.mapNode := by
    rw [List.filter_map]
    apply congrArg
    apply List.filter_congr
    intro y hy
    exact decide_eq_decide.mpr (not_congr (h.entry_eq_iff hy hx))
  rw [← hfilter]
  exact h.data.filter _

omit [DecidableEq κ] in
/-- Some of the links, in the same order. -/
theorem Represents.sublist {c' : LruNodes κ β} {l' : List (Link κ β)} (hsub : l'.Sublist l)
    (hdata : c'.data.Perm (l'.map Link.mapNode)) (hlru : c'.lru = l'.map Link.listNode)
    (hnext : c'.next = c.next) (hcapacity : c'.capacity = c.capacity) : Represents c' l' where
  data := hdata
  lru := hlru
  keys := h.keys.sublist (hsub.map _)
  entries := h.entries.sublist (hsub.map _)
  nodes := h.nodes.sublist (hsub.map _)
  fresh := fun x hx => hnext ▸ h.fresh x (hsub.mem hx)
  size_le := hcapacity ▸ hsub.length_le.trans h.size_le

/-- `erase` takes away the link with the key. -/
theorem Represents.erase (key : κ) : Represents (c.erase key).2 (l.filter fun y => y.key ≠ key) ∧
    (c.erase key).2.capacity = c.capacity ∧ ((c.erase key).1 = true ↔ ∃ x ∈ l, x.key = key) := by
  unfold LruNodes.erase
  cases hfind : c.find key with
  | none =>
      have hnone := h.find_eq_none hfind
      have hall : (l.filter fun y => y.key ≠ key) = l :=
        List.filter_eq_self.mpr fun x hx => decide_eq_true (hnone x hx)
      rw [hall]
      exact ⟨h, rfl, iff_of_false Bool.false_ne_true fun ⟨x, hx, hkey⟩ => hnone x hx hkey⟩
  | some m =>
      obtain ⟨x, hx, rfl, rfl⟩ := h.find_eq_some.mp hfind
      exact ⟨h.sublist List.filter_sublist (h.filter_data hx) (h.filter_lru hx) rfl rfl, rfl,
        iff_of_true rfl ⟨x, hx, rfl⟩⟩

/-- A link among the others. -/
theorem Represents.split {x : Link κ β} (hx : x ∈ l) :
    ((l.filter fun y => y.key ≠ x.key) ++ [x]).Perm l ∧ (l.filter fun y => y.key = x.key) = [x] := by
  obtain ⟨front, more, rfl⟩ := List.append_of_mem hx
  have hkeys := h.keys
  rw [List.map_append, List.map_cons, List.nodup_append, List.nodup_cons] at hkeys
  obtain ⟨-, ⟨hmore, -⟩, hfront⟩ := hkeys
  have hfront : ∀ y ∈ front, y.key ≠ x.key := fun y hy =>
    hfront _ (List.mem_map_of_mem hy) _ List.mem_cons_self
  have hmore : ∀ y ∈ more, y.key ≠ x.key := fun y hy heq =>
    hmore (heq ▸ List.mem_map_of_mem hy)
  constructor
  · rw [List.filter_append, List.filter_cons_of_neg (by simp),
      List.filter_eq_self.mpr fun y hy => decide_eq_true (hfront y hy),
      List.filter_eq_self.mpr fun y hy => decide_eq_true (hmore y hy), List.append_assoc]
    exact (List.perm_append_singleton x more).append_left front
  · rw [List.filter_append, List.filter_cons_of_pos (by simp),
      List.filter_eq_nil_iff.mpr fun y hy => by simpa using hfront y hy,
      List.filter_eq_nil_iff.mpr fun y hy => by simpa using hmore y hy, List.nil_append]

/-- `promote` puts a link behind the others. -/
theorem Represents.promote {x : Link κ β} (hx : x ∈ l) :
    Represents (c.promote x.node) ((l.filter fun y => y.key ≠ x.key) ++ [x]) := by
  obtain ⟨hperm, hself⟩ := h.split hx
  have hlast : (c.lru.filter fun n => n.addr = x.node) = [x.listNode] := by
    have hfilter : (l.map Link.listNode).filter (fun n => n.addr = x.node)
        = (l.filter fun y => y.key = x.key).map Link.listNode := by
      rw [List.filter_map]
      apply congrArg
      apply List.filter_congr
      intro y hy
      exact decide_eq_decide.mpr (h.node_eq_iff hy hx)
    rw [h.lru, hfilter, hself, List.map_singleton]
  exact
    { data := h.data.trans (hperm.map _).symm
      lru := by
        rw [LruNodes.promote, h.filter_lru hx, hlast, List.map_append, List.map_singleton]
      keys := (hperm.map _).nodup_iff.mpr h.keys
      entries := (hperm.map _).nodup_iff.mpr h.entries
      nodes := (hperm.map _).nodup_iff.mpr h.nodes
      fresh := fun y hy => h.fresh y (hperm.mem_iff.mp hy)
      size_le := hperm.length_eq.trans_le h.size_le }

omit [DecidableEq κ] in
/-- A full cache loses its oldest link. -/
theorem Represents.makeRoom (hcap : c.capacity ≠ 0) : ∃ c', c.makeRoom = .ok c' ∧
    c'.capacity = c.capacity ∧
      Represents c' (if c.capacity ≤ l.length then l.tail else l) ∧
      (if c.capacity ≤ l.length then l.tail else l).length < c.capacity := by
  rw [LruNodes.makeRoom, h.length_data]
  by_cases hfull : c.capacity ≤ l.length
  · rw [if_pos hfull, if_pos hfull]
    cases l with
    | nil => exact absurd (Nat.le_zero.mp hfull) hcap
    | cons x l =>
        have hsize := h.size_le
        rw [List.length_cons] at hsize
        have hrest : (c.data.filter fun m => m.addr ≠ x.entry).Perm (l.map Link.mapNode) := by
          have hfilter : ((x :: l).map Link.mapNode).filter (fun m => m.addr ≠ x.entry)
              = l.map Link.mapNode := by
            rw [List.map_cons, List.filter_cons_of_neg (by simp [Link.mapNode]),
              List.filter_eq_self]
            intro m hm
            obtain ⟨y, hy, rfl⟩ := List.mem_map.mp hm
            have hentries := h.entries
            rw [List.map_cons, List.nodup_cons] at hentries
            exact decide_eq_true fun heq => hentries.1 (heq ▸ List.mem_map_of_mem hy)
          rw [← hfilter]
          exact h.data.filter _
        refine ⟨{ c with
          data := c.data.filter fun m => m.addr ≠ x.entry
          lru := l.map Link.listNode }, ?_, rfl,
          h.sublist (List.sublist_cons_self x l) hrest rfl rfl rfl, ?_⟩
        · rw [retireOldest, h.lru]
          rfl
        · exact hsize
  · rw [if_neg hfull, if_neg hfull]
    exact ⟨c, rfl, rfl, h, not_le.mp hfull⟩

/-- A new link goes behind the others. -/
theorem Represents.emplace {key : κ} {value : β} (hkey : ∀ x ∈ l, x.key ≠ key)
    (hroom : l.length < c.capacity) : ∃ c', c.emplace key value = .ok c' ∧
      c'.capacity = c.capacity ∧ Represents c' (l ++ [⟨c.next, c.next + 1, key, value⟩]) := by
  have hnone : (c.find key).isSome = false := by
    rw [Option.isSome_eq_false_iff, Option.isNone_iff_eq_none]
    cases hfind : c.find key with
    | none => rfl
    | some m =>
        obtain ⟨x, hx, hxkey, -⟩ := h.find_eq_some.mp hfind
        exact absurd hxkey (hkey x hx)
  rw [LruNodes.emplace, throwIf, hnone, if_neg Bool.false_ne_true]
  have hnew : ∀ {f : Link κ β → Nat}, (∀ x ∈ l, f x < c.next) → ∀ {n : Nat}, c.next ≤ n →
      n ∉ l.map f := by
    intro f hf n hn hmem
    obtain ⟨x, hx, rfl⟩ := List.mem_map.mp hmem
    exact absurd (hf x hx) (not_lt.mpr hn)
  refine ⟨_, rfl, rfl, ?_⟩
  exact
    { data := by
        rw [List.map_append, List.map_singleton]
        exact ((h.data.cons _).trans (List.perm_append_singleton _ _).symm)
      lru := by rw [h.lru, List.map_append, List.map_singleton]; rfl
      keys := by
        rw [List.map_append, List.map_singleton, ← List.concat_eq_append, List.nodup_concat]
        refine ⟨?_, h.keys⟩
        intro hmem
        obtain ⟨x, hx, hxkey⟩ := List.mem_map.mp hmem
        exact hkey x hx hxkey
      entries := by
        rw [List.map_append, List.map_singleton, ← List.concat_eq_append, List.nodup_concat]
        exact ⟨hnew (fun x hx => (h.fresh x hx).1) (Nat.le_refl _), h.entries⟩
      nodes := by
        rw [List.map_append, List.map_singleton, ← List.concat_eq_append, List.nodup_concat]
        exact ⟨hnew (fun x hx => (h.fresh x hx).2) (Nat.le_succ _), h.nodes⟩
      fresh := by
        intro x hx
        rcases List.mem_append.mp hx with hx | hx
        · obtain ⟨hentry, hnode⟩ := h.fresh x hx
          exact ⟨Nat.lt_add_right 2 hentry, Nat.lt_add_right 2 hnode⟩
        · rw [List.mem_singleton.mp hx]
          exact ⟨Nat.lt_add_of_pos_right Nat.two_pos, Nat.lt_succ_self _⟩
      size_le := by
        rw [List.length_append, List.length_singleton]
        exact hroom }

omit [DecidableEq κ] in
theorem Represents.deref {x : Link κ β} (hx : x ∈ l) : c.deref x.entry = some x.value := by
  have haddrs : (c.data.map MapNode.addr).Nodup := h.oneToOne.addrs
  have hfind : (c.data.find? fun m => m.addr = x.entry) = some x.mapNode :=
    (SortedMap.find?_key haddrs).mpr ⟨h.mem_data.mpr ⟨x, hx, rfl⟩, rfl⟩
  rw [LruNodes.deref, hfind]
  rfl

end Represents

/-- A write through the pointer to the value of the last link. -/
theorem Represents.assign {c : LruNodes κ β} {l : List (Link κ β)} {x : Link κ β}
    (h : Represents c (l ++ [x])) (value : β) :
    Represents (c.assign x.entry value) (l ++ [{ x with value }]) := by
  have hother : ∀ y ∈ l, y.entry ≠ x.entry := by
    intro y hy heq
    have hentries := h.entries
    rw [List.map_append, List.map_singleton, ← List.concat_eq_append, List.nodup_concat]
      at hentries
    exact hentries.1 (heq ▸ List.mem_map_of_mem hy)
  have hmap : ((l ++ [x]).map Link.mapNode).map
      (fun m => if m.addr = x.entry then { m with value } else m)
      = (l ++ [{ x with value }]).map Link.mapNode := by
    rw [List.map_append, List.map_append, List.map_append, List.map_singleton, List.map_singleton,
      List.map_singleton, List.map_map]
    congr 1
    · apply List.map_congr_left
      intro y hy
      exact if_neg (hother y hy)
    · exact congrArg (fun m => [m]) (if_pos rfl)
  have hsame : ∀ {α : Type} (f : Link κ β → α), f { x with value } = f x →
      (l ++ [{ x with value }]).map f = (l ++ [x]).map f := by
    intro α f hf
    rw [List.map_append, List.map_append, List.map_singleton, List.map_singleton, hf]
  exact
    { data := by
        rw [← hmap]
        exact h.data.map _
      lru := h.lru.trans (hsame Link.listNode rfl).symm
      keys := (hsame Link.key rfl).symm ▸ h.keys
      entries := (hsame Link.entry rfl).symm ▸ h.entries
      nodes := (hsame Link.node rfl).symm ▸ h.nodes
      fresh := by
        intro y hy
        rcases List.mem_append.mp hy with hy | hy
        · exact h.fresh y (List.mem_append_left _ hy)
        · rw [List.mem_singleton.mp hy]
          exact h.fresh x (List.mem_append_right _ List.mem_cons_self)
      size_le := by
        have hsize := h.size_le
        rw [List.length_append, List.length_singleton] at hsize ⊢
        exact hsize }

end LruNodes

-- ============================================================================
-- Sequences of operations
-- ============================================================================

/-- A call on a cache.  Through the pointer that `getOrNullptr` returns, the
    caller reads the value and may write another one. -/
inductive LruOp (κ β : Type) where
  | upsert (key : κ) (value : β)
  | erase (key : κ)
  | get (key : κ)
  | getOrNullptr (key : κ) (write : Option β)
  | clear

/-- What a call returns. -/
inductive LruAnswer (β : Type) where
  | void
  | erased (found : Bool)
  | value (value : Option β)

variable {κ β : Type} [DecidableEq κ]

/-- A call on the list of pairs. -/
def LruCache.step (c : LruCache κ β) : LruOp κ β → LruAnswer β × LruCache κ β
  | .upsert key value => (.void, c.upsert key value)
  | .erase key => (.erased (c.find key).isSome, c.erase key)
  | .get key => (.value (c.get key).1, (c.get key).2)
  | .getOrNullptr key write =>
      match c.find key with
      | none => (.value none, c)
      | some value => (.value (some value), c.upsert key (write.getD value))
  | .clear => (.void, LruCache.empty c.capacity)

/-- Calls one after another, and what they return. -/
def LruCache.run (c : LruCache κ β) : List (LruOp κ β) → List (LruAnswer β) × LruCache κ β
  | [] => ([], c)
  | op :: ops => ((c.step op).1 :: ((c.step op).2.run ops).1, ((c.step op).2.run ops).2)

/-- Renewing an entry puts it behind the others. -/
theorem LruCache.entries_upsert_of_find {c : LruCache κ β} {key : κ} {value : β}
    (h : c.find key = some value) (new : β) :
    (c.upsert key new).entries = (c.entries.filter fun e => e.1 ≠ key) ++ [(key, new)] := by
  have hless : (c.erase key).entries.length < c.entries.length :=
    List.length_filter_lt_length_iff_exists.mpr ⟨(key, value), find_eq_some.mp h, by simp⟩
  have hsize := c.size_le
  have hroom : ¬ c.capacity ≤ (c.erase key).entries.length := by omega
  have hcap : c.capacity ≠ 0 := by omega
  rw [upsert, dif_neg hcap]
  show c.others key ++ [(key, new)] = _
  rw [others, if_neg hroom]
  rfl

theorem LruCache.capacity_step (c : LruCache κ β) (op : LruOp κ β) :
    (c.step op).2.capacity = c.capacity := by
  cases op with
  | upsert key value => exact c.capacity_upsert key value
  | erase key => rfl
  | get key =>
      show (c.get key).2.capacity = c.capacity
      unfold get
      split
      · rfl
      · exact c.capacity_upsert key _
  | getOrNullptr key write =>
      simp only [step]
      split
      · rfl
      · exact c.capacity_upsert key _
  | clear => rfl

theorem LruCache.capacity_run (c : LruCache κ β) (ops : List (LruOp κ β)) :
    (c.run ops).2.capacity = c.capacity := by
  induction ops generalizing c with
  | nil => rfl
  | cons op ops ih => exact (ih (c.step op).2).trans (c.capacity_step op)

namespace LruNodes

/-- A call on the two structures. -/
def step (c : LruNodes κ β) : LruOp κ β → Except Error (LruAnswer β × LruNodes κ β)
  | .upsert key value => do
      let c' ← c.upsert key value
      pure (.void, c')
  | .erase key => .ok (.erased (c.erase key).1, (c.erase key).2)
  | .get key => .ok (.value (c.get key).1, (c.get key).2)
  | .getOrNullptr key write =>
      match c.getOrNullptr key, write with
      | (none, c'), _ => .ok (.value none, c')
      | (some ptr, c'), none => .ok (.value (c'.deref ptr), c')
      | (some ptr, c'), some value => .ok (.value (c'.deref ptr), c'.assign ptr value)
  | .clear => .ok (.void, c.clear)

/-- Calls one after another, and what they return. -/
def run (c : LruNodes κ β) :
    List (LruOp κ β) → Except Error (List (LruAnswer β) × LruNodes κ β)
  | [] => .ok ([], c)
  | op :: ops => do
      let first ← c.step op
      let rest ← first.2.run ops
      pure (first.1 :: rest.1, rest.2)

/-- The links hold the pairs of the list, in its order. -/
def Refines (c : LruNodes κ β) (r : LruCache κ β) : Prop :=
  c.capacity = r.capacity ∧ ∃ l, Represents c l ∧ r.entries = l.map Link.pair

section Refines

variable {c : LruNodes κ β} {r : LruCache κ β} {l : List (Link κ β)}

theorem find_pairs (hr : r.entries = l.map Link.pair) {key : κ} {value : β} :
    r.find key = some value ↔ ∃ x ∈ l, x.key = key ∧ x.value = value := by
  rw [LruCache.find_eq_some, hr, List.mem_map]
  simp only [Link.pair, Prod.mk.injEq]

theorem filter_pairs (hr : r.entries = l.map Link.pair) (key : κ) :
    (r.entries.filter fun e => e.1 ≠ key) = (l.filter fun y => y.key ≠ key).map Link.pair := by
  rw [hr, List.filter_map]
  rfl

/-- A key that is found is the key of a link, and renewing its entry puts the
    link behind the others. -/
theorem renewed (h : Represents c l) (hr : r.entries = l.map Link.pair) {key : κ}
    {m : MapNode κ β} (hfind : c.find key = some m) :
    ∃ x, x.key = key ∧ x.mapNode = m ∧ r.find key = some x.value ∧
      Represents (c.promote m.it) ((l.filter fun y => y.key ≠ key) ++ [x]) ∧
      ∀ new, (r.upsert key new).entries
        = ((l.filter fun y : Link κ β => y.key ≠ key) ++ [{ x with value := new }]).map
          Link.pair := by
  obtain ⟨x, hx, rfl, rfl⟩ := h.find_eq_some.mp hfind
  have hfound : r.find x.key = some x.value := (find_pairs hr).mpr ⟨x, hx, rfl, rfl⟩
  refine ⟨x, rfl, rfl, hfound, h.promote hx, ?_⟩
  intro new
  rw [LruCache.entries_upsert_of_find hfound, filter_pairs hr, List.map_append, List.map_singleton]
  rfl

theorem find_none (h : Represents c l) (hr : r.entries = l.map Link.pair) {key : κ}
    (hfind : c.find key = none) : r.find key = none := by
  rw [LruCache.find_eq_none, hr]
  intro e he
  obtain ⟨x, hx, rfl⟩ := List.mem_map.mp he
  exact h.find_eq_none hfind x hx

theorem upsert_refines (h : Refines c r) (key : κ) (value : β) :
    ∃ c', c.upsert key value = .ok c' ∧ Refines c' (r.upsert key value) := by
  obtain ⟨hcap, l, hl, hr⟩ := h
  rw [upsert]
  by_cases hzero : c.capacity = 0
  · rw [if_pos hzero]
    refine ⟨c, rfl, ?_, l, hl, ?_⟩
    · rw [LruCache.capacity_upsert, hcap]
    · rw [LruCache.upsert, dif_pos (hcap ▸ hzero), hr]
  · rw [if_neg hzero]
    obtain ⟨herase, hcap₁, -⟩ := hl.erase key
    obtain ⟨c₂, hroom, hcap₂, hl₂, hless⟩ := herase.makeRoom (by rwa [hcap₁])
    rw [hcap₁] at hcap₂ hl₂ hless
    have hkey : ∀ x ∈ (if c.capacity ≤ (l.filter fun y : Link κ β => y.key ≠ key).length
        then (l.filter fun y : Link κ β => y.key ≠ key).tail
        else l.filter fun y : Link κ β => y.key ≠ key), x.key ≠ key := by
      intro x hx
      have hmem : x ∈ l.filter fun y : Link κ β => y.key ≠ key := by
        split at hx
        · exact List.mem_of_mem_tail hx
        · exact hx
      simpa using (List.mem_filter.mp hmem).2
    obtain ⟨c₃, hemplace, hcap₃, hl₃⟩ := @Represents.emplace _ _ _ _ hl₂ _ key value hkey (by rwa [hcap₂])
    refine ⟨c₃, by rw [hroom, ok_bind, hemplace], ?_, _, hl₃, ?_⟩
    · rw [LruCache.capacity_upsert, hcap₃, hcap₂, hcap]
    · rw [LruCache.upsert, dif_neg (hcap ▸ hzero), List.map_append, List.map_singleton]
      show r.others key ++ [(key, value)] = _
      congr 1
      show (if r.capacity ≤ (r.entries.filter fun e => e.1 ≠ key).length
        then (r.entries.filter fun e => e.1 ≠ key).tail
        else r.entries.filter fun e => e.1 ≠ key) = _
      rw [filter_pairs hr, List.length_map, ← hcap]
      split
      · rw [List.map_tail]
      · rfl

/-- Every call returns, returns what the call on the list returns, and leaves
    the links of the list it leaves. -/
theorem step_refines (h : Refines c r) (op : LruOp κ β) :
    ∃ c', c.step op = .ok ((r.step op).1, c') ∧ Refines c' (r.step op).2 := by
  cases op with
  | upsert key value =>
      obtain ⟨c', hc', hrefines⟩ := upsert_refines h key value
      exact ⟨c', by rw [step, hc']; rfl, hrefines⟩
  | erase key =>
      obtain ⟨hcap, l, hl, hr⟩ := h
      obtain ⟨herase, hcap', hfound⟩ := hl.erase key
      have hanswer : (c.erase key).1 = (r.find key).isSome := by
        rw [Bool.eq_iff_iff, hfound, Option.isSome_iff_exists]
        simp only [find_pairs hr]
        constructor
        · rintro ⟨x, hx, hkey⟩
          exact ⟨x.value, x, hx, hkey, rfl⟩
        · rintro ⟨_, x, hx, hkey, -⟩
          exact ⟨x, hx, hkey⟩
      exact ⟨_, by rw [step, hanswer]; rfl, hcap'.trans hcap, _, herase, filter_pairs hr key⟩
  | get key =>
      obtain ⟨hcap, l, hl, hr⟩ := h
      cases hfind : c.find key with
      | none =>
          refine ⟨c, ?_, ?_⟩
          · simp only [step, get, hfind, LruCache.step, LruCache.get, find_none hl hr hfind]
          · simp only [LruCache.step, LruCache.get, find_none hl hr hfind]
            exact ⟨hcap, l, hl, hr⟩
      | some m =>
          obtain ⟨x, -, rfl, hfound, hpromote, hentries⟩ := renewed hl hr hfind
          refine ⟨c.promote x.node, ?_, ?_⟩
          · simp only [step, get, hfind, LruCache.step, LruCache.get, hfound]
            rfl
          · simp only [LruCache.step, LruCache.get, hfound]
            exact ⟨hcap.trans (LruCache.capacity_upsert r key x.value).symm, _, hpromote,
              hentries x.value⟩
  | getOrNullptr key write =>
      obtain ⟨hcap, l, hl, hr⟩ := h
      cases hfind : c.find key with
      | none =>
          refine ⟨c, ?_, ?_⟩
          · simp only [step, getOrNullptr, hfind, LruCache.step, find_none hl hr hfind]
          · simp only [LruCache.step, find_none hl hr hfind]
            exact ⟨hcap, l, hl, hr⟩
      | some m =>
          obtain ⟨x, -, rfl, hfound, hpromote, hentries⟩ := renewed hl hr hfind
          have hderef := hpromote.deref (List.mem_append_right _ List.mem_cons_self)
          cases write with
          | none =>
              refine ⟨c.promote x.node, ?_, ?_⟩
              · simp only [step, getOrNullptr, hfind, LruCache.step, hfound]
                exact congrArg (fun v => Except.ok (LruAnswer.value v, _)) hderef
              · simp only [LruCache.step, hfound]
                exact ⟨hcap.trans (LruCache.capacity_upsert r key x.value).symm, _, hpromote,
                  hentries x.value⟩
          | some value =>
              refine ⟨(c.promote x.node).assign x.entry value, ?_, ?_⟩
              · simp only [step, getOrNullptr, hfind, LruCache.step, hfound]
                exact congrArg (fun v => Except.ok (LruAnswer.value v, _)) hderef
              · simp only [LruCache.step, hfound]
                exact ⟨hcap.trans (LruCache.capacity_upsert r key value).symm, _,
                  hpromote.assign value, hentries value⟩
  | clear =>
      obtain ⟨hcap, l, hl, hr⟩ := h
      exact ⟨c.clear, rfl, hcap, [],
        { data := List.Perm.nil
          lru := rfl
          keys := List.nodup_nil
          entries := List.nodup_nil
          nodes := List.nodup_nil
          fresh := fun _ h => absurd h List.not_mem_nil
          size_le := Nat.zero_le _ }, rfl⟩

theorem run_refines (h : Refines c r) (ops : List (LruOp κ β)) :
    ∃ c', c.run ops = .ok ((r.run ops).1, c') ∧ Refines c' (r.run ops).2 := by
  induction ops generalizing c r with
  | nil => exact ⟨c, rfl, h⟩
  | cons op ops ih =>
      obtain ⟨c₁, hstep, h₁⟩ := step_refines h op
      obtain ⟨c₂, hrun, h₂⟩ := ih h₁
      exact ⟨c₂, by rw [run, hstep, ok_bind, hrun]; rfl, h₂⟩

end Refines

/-- After any sequence of calls on a new cache, the calls have returned what the
    list of pairs returns, the cache holds the pairs of the list, at most as
    many as its capacity, and map entries and list nodes correspond one to
    one. -/
theorem run_empty_refines (capacity : Nat) (ops : List (LruOp κ β)) :
    ∃ c : LruNodes κ β, (empty capacity).run ops = .ok (((LruCache.empty capacity).run ops).1, c) ∧
      Refines c ((LruCache.empty capacity).run ops).2 ∧ c.size ≤ capacity ∧ OneToOne c := by
  have hempty : Refines (empty capacity) (LruCache.empty capacity : LruCache κ β) :=
    ⟨rfl, [], represents_empty capacity, rfl⟩
  obtain ⟨c, hrun, hrefines⟩ := run_refines hempty ops
  obtain ⟨hcap, l, hl, -⟩ := id hrefines
  refine ⟨c, hrun, hrefines, ?_, hl.oneToOne⟩
  have hsize := hl.size_le
  rw [hcap, LruCache.capacity_run] at hsize
  exact hl.length_data.trans_le hsize

end LruNodes

end NixStore
