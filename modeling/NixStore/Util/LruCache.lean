/-
  NixStore.Util.LruCache

  The least-recently-used cache of `libutil/lru-cache.hh`.

  The map and the list of the source are one list of entries here, the oldest
  first.  `upsert` does not enlarge a full cache but drops its oldest entry,
  and a cache of capacity zero never holds anything.
-/

import NixStore.Lib.SortedMap
import Mathlib.Data.List.DropRight
import Mathlib.Data.List.Nodup
import Mathlib.Data.List.Basic
import Mathlib.Data.List.Perm.Subperm

namespace NixStore

/-- `LRUCache`: entries from the least to the most recently used. -/
structure LruCache (κ β : Type) where
  capacity : Nat
  entries : List (κ × β)
  nodup : (entries.map Prod.fst).Nodup
  size_le : entries.length ≤ capacity

namespace LruCache

variable {κ β : Type}

/-- The constructor `LRUCache(size_t)`. -/
def empty (capacity : Nat) : LruCache κ β where
  capacity := capacity
  entries := []
  nodup := List.nodup_nil
  size_le := Nat.zero_le _

theorem nodup_filter {l : List (κ × β)} (h : (l.map Prod.fst).Nodup) (p : κ × β → Bool) :
    ((l.filter p).map Prod.fst).Nodup :=
  h.sublist (List.filter_sublist.map Prod.fst)

variable [DecidableEq κ]

/-- The value under a key. -/
def find (c : LruCache κ β) (k : κ) : Option β :=
  (c.entries.find? fun e => e.1 = k).map Prod.snd

/-- `erase`. -/
def erase (c : LruCache κ β) (k : κ) : LruCache κ β where
  capacity := c.capacity
  entries := c.entries.filter fun e => e.1 ≠ k
  nodup := nodup_filter c.nodup _
  size_le := (List.length_filter_le _ _).trans c.size_le

/-- What is left under other keys when room is made for a key: a full cache
    retires its oldest item. -/
def others (c : LruCache κ β) (k : κ) : List (κ × β) :=
  if c.capacity ≤ (c.erase k).entries.length then (c.erase k).entries.tail
  else (c.erase k).entries

theorem not_mem_erase (c : LruCache κ β) (k : κ) : ∀ e ∈ (c.erase k).entries, e.1 ≠ k := by
  intro e he
  simpa using (List.mem_filter.mp he).2

theorem others_sublist (c : LruCache κ β) (k : κ) :
    (c.others k).Sublist (c.erase k).entries := by
  unfold others
  split
  · exact List.tail_sublist _
  · exact List.Sublist.refl _

theorem nodup_others (c : LruCache κ β) (k : κ) (v : β) :
    ((c.others k ++ [(k, v)]).map Prod.fst).Nodup := by
  rw [List.map_append, List.map_singleton, ← List.concat_eq_append, List.nodup_concat]
  refine ⟨?_, (c.erase k).nodup.sublist ((c.others_sublist k).map _)⟩
  intro hmem
  obtain ⟨e, he, hek⟩ := List.mem_map.mp hmem
  exact c.not_mem_erase k e ((c.others_sublist k).mem he) hek

theorem length_others (c : LruCache κ β) (k : κ) (h : c.capacity ≠ 0) :
    (c.others k).length + 1 ≤ c.capacity := by
  have hle : (c.erase k).entries.length ≤ c.capacity := (c.erase k).size_le
  unfold others
  split
  · rw [List.length_tail]
    omega
  · omega

/-- `upsert`. -/
def upsert (c : LruCache κ β) (k : κ) (v : β) : LruCache κ β :=
  if hcap : c.capacity = 0 then c
  else
    { capacity := c.capacity
      entries := c.others k ++ [(k, v)]
      nodup := c.nodup_others k v
      size_le := by
        rw [List.length_append, List.length_singleton]
        exact c.length_others k hcap }

/-- `get`: a hit becomes the most recently used entry. -/
def get (c : LruCache κ β) (k : κ) : Option β × LruCache κ β :=
  match c.find k with
  | none => (none, c)
  | some v => (some v, c.upsert k v)

/-! ## Lookups -/

theorem find_eq_some {c : LruCache κ β} {k : κ} {v : β} :
    c.find k = some v ↔ (k, v) ∈ c.entries := by
  unfold find
  rw [Option.map_eq_some_iff]
  constructor
  · rintro ⟨⟨k', v'⟩, hfind, rfl⟩
    obtain ⟨hmem, rfl⟩ := (SortedMap.find?_key c.nodup).mp hfind
    exact hmem
  · intro hmem
    exact ⟨(k, v), (SortedMap.find?_key c.nodup).mpr ⟨hmem, rfl⟩, rfl⟩

theorem find_eq_none {c : LruCache κ β} {k : κ} :
    c.find k = none ↔ ∀ e ∈ c.entries, e.1 ≠ k := by
  simp [find]

@[simp] theorem find_empty (n : Nat) (k : κ) : (empty n : LruCache κ β).find k = none := rfl

@[simp] theorem find_erase_self (c : LruCache κ β) (k : κ) : (c.erase k).find k = none :=
  find_eq_none.mpr (c.not_mem_erase k)

theorem find_erase_of_ne (c : LruCache κ β) {k k' : κ} (h : k' ≠ k) :
    (c.erase k).find k' = c.find k' := by
  apply Option.ext
  intro v
  show (c.erase k).find k' = some v ↔ c.find k' = some v
  rw [find_eq_some, find_eq_some, erase, List.mem_filter]
  simp [h]

@[simp] theorem capacity_upsert (c : LruCache κ β) (k : κ) (v : β) :
    (c.upsert k v).capacity = c.capacity := by
  unfold upsert
  split <;> rfl

/-- What `upsert` does, whatever the capacity. -/
theorem entries_upsert (c : LruCache κ β) (k : κ) (v : β) :
    (c.upsert k v).entries = ((c.erase k).entries ++ [(k, v)]).rtake c.capacity := by
  have hle : (c.erase k).entries.length ≤ c.capacity := (c.erase k).size_le
  unfold upsert List.rtake
  by_cases hcap : c.capacity = 0
  · rw [dif_pos hcap, hcap, Nat.sub_zero, List.drop_length]
    exact List.length_eq_zero_iff.mp (Nat.le_zero.mp (hcap ▸ c.size_le))
  · rw [dif_neg hcap, List.length_append, List.length_singleton]
    show c.others k ++ [(k, v)] = _
    unfold others
    by_cases hfull : c.capacity ≤ (c.erase k).entries.length
    · have hone : (c.erase k).entries.length + 1 - c.capacity = 1 := by omega
      have hpos : 1 ≤ (c.erase k).entries.length := by omega
      rw [if_pos hfull, hone, List.drop_append_of_le_length hpos, List.drop_one]
    · have hzero : (c.erase k).entries.length + 1 - c.capacity = 0 := by omega
      rw [if_neg hfull, hzero, List.drop_zero]

theorem find_upsert_self (c : LruCache κ β) (k : κ) (v : β) (h : c.capacity ≠ 0) :
    (c.upsert k v).find k = some v := by
  rw [find_eq_some, upsert, dif_neg h]
  exact List.mem_append_right _ (List.mem_singleton.mpr rfl)

/-- The key put in has the new value or, if nothing can be put in, none. -/
theorem find_upsert_self_eq {c : LruCache κ β} {k : κ} {v w : β}
    (h : (c.upsert k v).find k = some w) : w = v := by
  by_cases hcap : c.capacity = 0
  · rw [find_eq_some] at h
    have hle := (c.upsert k v).size_le
    rw [capacity_upsert, hcap, Nat.le_zero, List.length_eq_zero_iff] at hle
    rw [hle] at h
    cases h
  · rw [c.find_upsert_self k v hcap] at h
    exact (Option.some.inj h).symm

/-- The other keys keep their values or are dropped. -/
theorem find_of_find_upsert {c : LruCache κ β} {k k' : κ} {v w : β} (hne : k' ≠ k)
    (h : (c.upsert k v).find k' = some w) : c.find k' = some w := by
  rw [find_eq_some, entries_upsert] at h
  have hmem := (List.drop_sublist _ _).mem h
  rw [List.mem_append, List.mem_singleton, Prod.mk.injEq] at hmem
  rcases hmem with hmem | ⟨heq, -⟩
  · exact find_eq_some.mpr (List.mem_filter.mp hmem).1
  · exact absurd heq hne

/-- Renewing an entry drops nothing. -/
theorem find_upsert_of_find {c : LruCache κ β} {k : κ} {v : β} (h : c.find k = some v) (k' : κ) :
    (c.upsert k v).find k' = c.find k' := by
  have hmem := find_eq_some.mp h
  have hlt : (c.erase k).entries.length < c.entries.length := by
    refine List.length_filter_lt_length_iff_exists.mpr ⟨(k, v), hmem, ?_⟩
    simp
  have hcap : c.capacity ≠ 0 := by
    have := c.size_le
    omega
  by_cases hk : k' = k
  · subst hk
    rw [c.find_upsert_self k' v hcap, h]
  · apply Option.ext
    intro w
    refine ⟨find_of_find_upsert hk, fun hw => ?_⟩
    rw [← find_erase_of_ne c hk] at hw
    have hroom : ¬ c.capacity ≤ (c.erase k).entries.length := by
      have := c.size_le
      omega
    show (c.upsert k v).find k' = some w
    rw [find_eq_some, upsert, dif_neg hcap]
    show (k', w) ∈ c.others k ++ [(k, v)]
    rw [others, if_neg hroom]
    exact List.mem_append_left _ (find_eq_some.mp hw)

/-- `get` reads and does not change what is found. -/
theorem get_fst (c : LruCache κ β) (k : κ) : (c.get k).1 = c.find k := by
  unfold get
  cases c.find k <;> rfl

theorem find_get (c : LruCache κ β) (k k' : κ) : (c.get k).2.find k' = c.find k' := by
  unfold get
  cases h : c.find k with
  | none => rfl
  | some v => exact find_upsert_of_find h k'

/-! ## Size -/

theorem length_erase {c : LruCache κ β} {k : κ} {v : β} (h : c.find k = some v) :
    (c.erase k).entries.length + 1 = c.entries.length := by
  have hmem : k ∈ c.entries.map Prod.fst := List.mem_map_of_mem (find_eq_some.mp h)
  have hcount := List.count_eq_one_of_mem c.nodup hmem
  have hsplit := List.length_eq_countP_add_countP (fun e : κ × β => e.1 == k) (l := c.entries)
  have hone : c.entries.countP (fun e => e.1 == k) = 1 := by
    rw [List.count, List.countP_map] at hcount
    exact hcount
  rw [hone] at hsplit
  unfold erase
  rw [← List.countP_eq_length_filter]
  simp only [beq_iff_eq, ne_eq] at hsplit ⊢
  omega

theorem length_upsert_le (c : LruCache κ β) (k : κ) (v : β) :
    (c.upsert k v).entries.length ≤ c.entries.length + 1 := by
  have herase : (c.erase k).entries.length ≤ c.entries.length := List.length_filter_le _ _
  rw [entries_upsert, List.rtake, List.length_drop, List.length_append, List.length_singleton]
  omega

/-- A hit only changes the order. -/
theorem length_get (c : LruCache κ β) (k : κ) : (c.get k).2.entries.length = c.entries.length := by
  unfold get
  cases hfind : c.find k with
  | none => rfl
  | some v =>
      have herase := length_erase hfind
      have hsize := c.size_le
      simp only
      rw [entries_upsert, List.rtake, List.length_drop, List.length_append, List.length_singleton]
      omega

/-! ## A sequence of insertions

After entries with different keys have been put in, the cache holds the last
of them and, as far as there is room, what it had before: an entry survives if
fewer others are newer than the capacity allows. -/

/-- Put in one entry after another. -/
def upsertAll (c : LruCache κ β) (new : List (κ × β)) : LruCache κ β :=
  new.foldl (fun c e => c.upsert e.1 e.2) c

theorem upsertAll_append (c : LruCache κ β) (new new' : List (κ × β)) :
    c.upsertAll (new ++ new') = (c.upsertAll new).upsertAll new' :=
  List.foldl_append

/-- What stands behind the entry of a key. -/
def behind (k : κ) (l : List (κ × β)) : List (κ × β) := (l.dropWhile fun e => e.1 ≠ k).tail

/-- The entries whose keys are not among those put in. -/
def untouched (new : List (κ × β)) (l : List (κ × β)) : List (κ × β) :=
  l.filter fun e => e.1 ∉ new.map Prod.fst

theorem behind_split {k : κ} {v : β} {front rest : List (κ × β)}
    (h : ∀ e ∈ front, e.1 ≠ k) : behind k (front ++ (k, v) :: rest) = rest := by
  unfold behind
  rw [List.dropWhile_append_of_pos (by simpa using h)]
  simp

omit [DecidableEq κ] in
theorem mem_rtake_split {l front rest : List (κ × β)} {e : κ × β} {n : Nat}
    (hl : l = front ++ e :: rest) (hnodup : (l.map Prod.fst).Nodup) :
    e ∈ l.rtake n ↔ rest.length < n := by
  have hnot : e ∉ rest := by
    intro hmem
    rw [hl, List.map_append, List.map_cons, List.nodup_append, List.nodup_cons] at hnodup
    exact hnodup.2.1.1 (List.mem_map_of_mem hmem)
  unfold List.rtake
  rw [hl, List.length_append, List.length_cons]
  constructor
  · intro hmem
    by_contra hlt
    have hsuffix : front.length + 1 ≤ front.length + (rest.length + 1) - n := by omega
    obtain ⟨m, hm⟩ := Nat.exists_eq_add_of_le hsuffix
    rw [hm, ← List.drop_drop, ← List.singleton_append, ← List.append_assoc,
      List.drop_left' (by simp)] at hmem
    exact hnot ((List.drop_sublist _ _).mem hmem)
  · intro hlt
    rw [List.drop_append_of_le_length (by omega)]
    exact List.mem_append_right _ List.mem_cons_self

/-- Filtering out keys and dropping old entries commute, if what is added is at
    least as much as what is filtered out. -/
theorem rtake_untouched_append {l new : List (κ × β)} {n : Nat} (hnodup : (l.map Prod.fst).Nodup) :
    (untouched new (l.rtake n) ++ new).rtake n = (untouched new l ++ new).rtake n := by
  by_cases hshort : l.length ≤ n
  · have hall : l.rtake n = l := by
      rw [List.rtake, Nat.sub_eq_zero_of_le hshort, List.drop_zero]
    rw [hall]
  · -- the entries kept are `n`, and at most as many of them have a new key as there are new keys
    have hlen : (l.rtake n).length = n := by
      rw [List.rtake, List.length_drop]
      omega
    have hsub : ((l.rtake n).map Prod.fst).Nodup :=
      hnodup.sublist ((List.drop_sublist _ _).map _)
    have hcount : n ≤ (untouched new (l.rtake n)).length + new.length := by
      have hsplit := List.length_eq_length_filter_add (l := l.rtake n)
        (fun e => decide (e.1 ∉ new.map Prod.fst))
      have htouched : ((l.rtake n).filter fun e => !decide (e.1 ∉ new.map Prod.fst)).length
          ≤ new.length := by
        have hsubperm : (((l.rtake n).filter fun e => !decide (e.1 ∉ new.map Prod.fst)).map
            Prod.fst).Subperm (new.map Prod.fst) := by
          apply List.subperm_of_subset (nodup_filter hsub _)
          intro k hk
          obtain ⟨e, he, rfl⟩ := List.mem_map.mp hk
          simpa using (List.mem_filter.mp he).2
        have hle := hsubperm.length_le
        rwa [List.length_map, List.length_map] at hle
      have hun : (untouched new (l.rtake n)).length
          = ((l.rtake n).filter fun e => decide (e.1 ∉ new.map Prod.fst)).length := rfl
      omega
    have hdecomp : untouched new l
        = untouched new (l.take (l.length - n)) ++ untouched new (l.rtake n) := by
      unfold untouched List.rtake
      rw [← List.filter_append, List.take_append_drop]
    rw [hdecomp, List.append_assoc]
    unfold List.rtake
    rw [List.length_append, List.length_append]
    have hfar : (untouched new (l.take (l.length - n))).length ≤
        (untouched new (l.take (l.length - n))).length +
          ((untouched new (l.drop (l.length - n))).length + new.length) - n := by
      have : n ≤ (untouched new (l.drop (l.length - n))).length + new.length := hcount
      omega
    obtain ⟨m, hm⟩ := Nat.exists_eq_add_of_le hfar
    rw [List.length_append, hm, ← List.drop_drop, List.drop_left]
    congr 1
    omega

@[simp] theorem capacity_upsertAll (c : LruCache κ β) (new : List (κ × β)) :
    (c.upsertAll new).capacity = c.capacity := by
  unfold upsertAll
  induction new generalizing c with
  | nil => rfl
  | cons e rest ih => rw [List.foldl_cons, ih, capacity_upsert]

/-- The cache after a sequence of insertions. -/
theorem entries_upsertAll (c : LruCache κ β) {new : List (κ × β)}
    (hnew : (new.map Prod.fst).Nodup) :
    (c.upsertAll new).entries = (untouched new c.entries ++ new).rtake c.capacity := by
  induction new generalizing c with
  | nil =>
      have hall : untouched [] c.entries = c.entries := by
        simp [untouched]
      rw [hall, List.append_nil, List.rtake, Nat.sub_eq_zero_of_le c.size_le, List.drop_zero]
      rfl
  | cons e rest ih =>
      rw [List.map_cons, List.nodup_cons] at hnew
      have hstep : c.upsertAll (e :: rest) = (c.upsert e.1 e.2).upsertAll rest := rfl
      have hkeys : (((c.erase e.1).entries ++ [(e.1, e.2)]).map Prod.fst).Nodup := by
        rw [List.map_append, List.map_singleton, ← List.concat_eq_append, List.nodup_concat]
        refine ⟨?_, (c.erase e.1).nodup⟩
        intro hmem
        obtain ⟨d, hd, hde⟩ := List.mem_map.mp hmem
        exact c.not_mem_erase e.1 d hd hde
      have hfirst : untouched rest [(e.1, e.2)] = [e] := by
        rw [untouched, List.filter_cons, if_pos (by simpa using hnew.1)]
        rfl
      have hothers : untouched rest (c.erase e.1).entries = untouched (e :: rest) c.entries := by
        unfold untouched erase
        rw [List.filter_filter]
        apply List.filter_congr
        intro d _
        rw [List.map_cons, ← Bool.decide_and, decide_eq_decide, List.mem_cons, not_or, and_comm]
      rw [hstep, ih _ hnew.2, capacity_upsert, entries_upsert, rtake_untouched_append hkeys]
      have happend : untouched rest ((c.erase e.1).entries ++ [(e.1, e.2)])
          = untouched (e :: rest) c.entries ++ [e] := by
        rw [← hothers]
        exact (List.filter_append ..).trans (congrArg _ hfirst)
      rw [happend, List.append_assoc, List.singleton_append]

theorem nodup_untouched_append (c : LruCache κ β) {new : List (κ × β)}
    (hnew : (new.map Prod.fst).Nodup) :
    ((untouched new c.entries ++ new).map Prod.fst).Nodup := by
  rw [List.map_append, List.nodup_append]
  refine ⟨nodup_filter c.nodup _, hnew, ?_⟩
  rintro k hk k' hk' rfl
  obtain ⟨e, he, rfl⟩ := List.mem_map.mp hk
  have hout := (List.mem_filter.mp he).2
  exact absurd hk' (by simpa using hout)

/-- A new entry is found unless as many newer ones as there is room for have
    been put in behind it. -/
theorem find_upsertAll_new (c : LruCache κ β) {new : List (κ × β)}
    (hnew : (new.map Prod.fst).Nodup) {k : κ} {v w : β} (hmem : (k, v) ∈ new) :
    (c.upsertAll new).find k = some w ↔ w = v ∧ (behind k new).length < c.capacity := by
  obtain ⟨front, rest, hsplit⟩ := List.append_of_mem hmem
  have hfront : ∀ e ∈ front, e.1 ≠ k := by
    intro e he heq
    rw [hsplit, List.map_append, List.map_cons, List.nodup_append] at hnew
    exact hnew.2.2 e.1 (List.mem_map_of_mem he) k List.mem_cons_self heq
  have hbehind : behind k new = rest := by
    rw [hsplit, behind_split hfront]
  have hwhole : untouched new c.entries ++ new
      = (untouched new c.entries ++ front) ++ (k, v) :: rest := by
    rw [List.append_assoc, ← hsplit]
  have hunique : (k, w) ∈ (untouched new c.entries ++ new).rtake c.capacity → w = v := by
    intro h
    have heq := List.inj_on_of_nodup_map (c.nodup_untouched_append hnew)
      ((List.drop_sublist _ _).mem h) (List.mem_append_right _ hmem) rfl
    exact (Prod.mk.inj heq).2
  rw [find_eq_some, entries_upsertAll c hnew, hbehind]
  constructor
  · intro h
    have hwv := hunique h
    subst hwv
    exact ⟨rfl, (mem_rtake_split hwhole (c.nodup_untouched_append hnew)).mp h⟩
  · rintro ⟨rfl, hlt⟩
    exact (mem_rtake_split hwhole (c.nodup_untouched_append hnew)).mpr hlt

/-- An old entry is found unless the entries behind it and the new ones fill
    the cache. -/
theorem find_upsertAll_old (c : LruCache κ β) {new : List (κ × β)}
    (hnew : (new.map Prod.fst).Nodup) {k : κ} (hk : k ∉ new.map Prod.fst) {w : β} :
    (c.upsertAll new).find k = some w ↔
      c.find k = some w ∧ (untouched new (behind k c.entries)).length + new.length < c.capacity := by
  rw [find_eq_some, find_eq_some, entries_upsertAll c hnew]
  have hsplit_of_mem (h : (k, w) ∈ c.entries) :
      ∃ front, untouched new c.entries ++ new
        = front ++ (k, w) :: (untouched new (behind k c.entries) ++ new) := by
    obtain ⟨front, rest, hsplit⟩ := List.append_of_mem h
    have hfront : ∀ e ∈ front, e.1 ≠ k := by
      intro e he heq
      have hnodup := c.nodup
      rw [hsplit, List.map_append, List.map_cons, List.nodup_append] at hnodup
      exact hnodup.2.2 e.1 (List.mem_map_of_mem he) k List.mem_cons_self heq
    refine ⟨untouched new front, ?_⟩
    rw [hsplit, behind_split hfront]
    unfold untouched
    rw [List.filter_append, List.filter_cons, if_pos (by simpa using hk), List.append_assoc,
      List.cons_append]
  constructor
  · intro h
    have hmem : (k, w) ∈ c.entries := by
      rcases List.mem_append.mp ((List.drop_sublist _ _).mem h) with hold | hin
      · exact (List.mem_filter.mp hold).1
      · exact absurd (List.mem_map_of_mem (f := Prod.fst) hin) hk
    obtain ⟨front, hwhole⟩ := hsplit_of_mem hmem
    have hlt := (mem_rtake_split hwhole (c.nodup_untouched_append hnew)).mp h
    rw [List.length_append] at hlt
    exact ⟨hmem, hlt⟩
  · rintro ⟨hmem, hlt⟩
    obtain ⟨front, hwhole⟩ := hsplit_of_mem hmem
    refine (mem_rtake_split hwhole (c.nodup_untouched_append hnew)).mpr ?_
    rw [List.length_append]
    exact hlt

/-- The key has no entry after these insertions, for want of room. -/
def Displaced (c : LruCache κ β) (new : List (κ × β)) (k : κ) : Prop :=
  c.capacity ≤
    if k ∈ new.map Prod.fst then (behind k new).length
    else (untouched new (behind k c.entries)).length + new.length

instance (c : LruCache κ β) (new : List (κ × β)) (k : κ) : Decidable (c.Displaced new k) := by
  unfold Displaced
  infer_instance

theorem find_upsertAll_of_mem (c : LruCache κ β) {new : List (κ × β)}
    (hnew : (new.map Prod.fst).Nodup) {k : κ} {v : β} (hmem : (k, v) ∈ new) :
    (c.upsertAll new).find k = if c.Displaced new k then none else some v := by
  have hk : k ∈ new.map Prod.fst := List.mem_map_of_mem (f := Prod.fst) hmem
  have hdisplaced : c.Displaced new k ↔ c.capacity ≤ (behind k new).length := by
    unfold Displaced
    rw [if_pos hk]
  apply Option.ext
  intro w
  show (c.upsertAll new).find k = some w ↔ _
  rw [find_upsertAll_new c hnew hmem]
  simp only [hdisplaced]
  by_cases hlt : (behind k new).length < c.capacity
  · simp [hlt, Nat.not_le.mpr hlt, eq_comm]
  · simp [hlt, Nat.not_lt.mp hlt]

theorem find_upsertAll_of_not_mem (c : LruCache κ β) {new : List (κ × β)}
    (hnew : (new.map Prod.fst).Nodup) {k : κ} (hk : k ∉ new.map Prod.fst) :
    (c.upsertAll new).find k = if c.Displaced new k then none else c.find k := by
  have hdisplaced : c.Displaced new k ↔
      c.capacity ≤ (untouched new (behind k c.entries)).length + new.length := by
    unfold Displaced
    rw [if_neg hk]
  apply Option.ext
  intro w
  show (c.upsertAll new).find k = some w ↔ _
  rw [find_upsertAll_old c hnew hk]
  simp only [hdisplaced]
  by_cases hlt : (untouched new (behind k c.entries)).length + new.length < c.capacity
  · simp [hlt, Nat.not_le.mpr hlt]
  · simp [hlt, Nat.not_lt.mp hlt]

theorem find_upsertAll_of_displaced (c : LruCache κ β) {new : List (κ × β)}
    (hnew : (new.map Prod.fst).Nodup) {k : κ} (h : c.Displaced new k) :
    (c.upsertAll new).find k = none := by
  by_cases hk : k ∈ new.map Prod.fst
  · obtain ⟨⟨_, v⟩, hmem, rfl⟩ := List.mem_map.mp hk
    rw [find_upsertAll_of_mem c hnew hmem, if_pos h]
  · rw [find_upsertAll_of_not_mem c hnew hk, if_pos h]

end LruCache
end NixStore
