/-
  NixStore.Store.References

  `rewriteStrings` (`libutil/util.cc`), `RewritingSink` and `HashModuloSink`
  (`libstore/references.cc`).

  A `RewritingSink` holds back the last `maxRewriteSize - 1` bytes of what it
  has rewritten, so that an occurrence that straddles two writes is found.
  For a single rewrite this makes the writes invisible: whatever way the
  stream is cut, the sink passes on the sweep of the whole stream
  (`RewritingSink.run_flush`).
-/

import NixStore.Lib.Sweep
import NixStore.Util.Serialise
import Mathlib.Data.Finset.Sort

namespace NixStore

open Sweep

/-! ## `rewriteStrings` -/

/-- `s.find(pat, j)`: the first place at or after `j` where `pat` stands. -/
def findFrom (pat s : Bytes) (j : Nat) : Option Nat :=
  (List.range (s.length + 1)).find? fun i => decide (j ≤ i ∧ pat <+: s.drop i)

/-- `s.replace(j, n, to)`. -/
def replaceAt (s : Bytes) (j n : Nat) (dst : Bytes) : Bytes :=
  s.take j ++ dst ++ s.drop (j + n)

/-- The `while` loop of `rewriteStrings`.  For a replacement of the same size
    every round but the first finds a place further on, so a round per
    position is enough. -/
def rewriteLoop (src dst : Bytes) (offsetShift : Nat) :
    Nat → Nat → Bytes → Finset Nat → Bytes × Finset Nat
  | 0, _, s, found => (s, found)
  | rounds + 1, j, s, found =>
      match findFrom src s j with
      | none => (s, found)
      | some i =>
          rewriteLoop src dst offsetShift rounds i (replaceAt s i src.length dst)
            (insert ((i + offsetShift) % 2 ^ 64) found)

/-- `rewriteStrings` with a set of matches to fill.  `rewrites` is the map's
    content in the order of its keys. -/
def rewriteStrings (s : Bytes) (rewrites : List (Bytes × Bytes)) (found : Finset Nat)
    (offsetShift : Nat) : Bytes × Finset Nat :=
  rewrites.foldl
    (fun st r =>
      if r.1 = r.2 then st
      else rewriteLoop r.1 r.2 offsetShift (st.1.length + 1) 0 st.1 st.2)
    (s, found)

section Loop

variable {src dst : Bytes}

theorem findFrom_eq_none {s : Bytes} {j : Nat} (h : findFrom src s j = none) :
    ∀ i, j ≤ i → i ≤ s.length → ¬ src <+: s.drop i := by
  intro i hj hi hpre
  have hall := List.find?_eq_none.mp h i (List.mem_range.mpr (by omega))
  exact hall (decide_eq_true ⟨hj, hpre⟩)

theorem findFrom_eq_some {s : Bytes} {i j : Nat} (h : findFrom src s j = some i) :
    j ≤ i ∧ i ≤ s.length ∧ src <+: s.drop i ∧ ∀ m, j ≤ m → m < i → ¬ src <+: s.drop m := by
  unfold findFrom at h
  rw [List.find?_range_eq_some] at h
  obtain ⟨hfound, hmem, hfirst⟩ := h
  obtain ⟨hji, hpre⟩ := of_decide_eq_true hfound
  have hi := List.mem_range.mp hmem
  refine ⟨hji, by omega, hpre, ?_⟩
  intro m hjm hmi hm
  have hno := hfirst m hmi
  rw [decide_eq_true ⟨hjm, hm⟩] at hno
  cases hno

theorem drop_replaceAt {s : Bytes} {i : Nat} (hi : i ≤ s.length) (hpre : src <+: s.drop i) :
    (replaceAt s i src.length dst).drop i = patch src dst (s.drop i) := by
  have htake : (s.take i).length = i := by rw [List.length_take]; omega
  rw [replaceAt, patch, if_pos hpre, List.append_assoc, List.drop_append_of_le_length (by omega),
    List.drop_eq_nil_of_le (Nat.le_of_eq htake), List.nil_append, List.drop_drop]

theorem take_replaceAt {s : Bytes} {i : Nat} (hi : i ≤ s.length) (n : Nat) :
    (replaceAt s i n dst).take i = s.take i := by
  have htake : (s.take i).length = i := by rw [List.length_take]; omega
  rw [replaceAt, List.append_assoc, List.take_append_of_le_length (by omega), List.take_take,
    Nat.min_self]

/-- What a round of the loop leaves: a text of the same size, in which `src` no
    longer stands at the place of the round. -/
theorem replaceAt_round (hlen : src.length = dst.length) (hne : src ≠ dst) {s : Bytes} {i : Nat}
    (hi : i ≤ s.length) (hpre : src <+: s.drop i) :
    (replaceAt s i src.length dst).length = s.length ∧
      ¬ src <+: (replaceAt s i src.length dst).drop i := by
  constructor
  · have hle := hpre.length_le
    rw [List.length_drop] at hle
    simp only [replaceAt, List.length_append, List.length_take, List.length_drop]
    omega
  · rw [drop_replaceAt hi hpre, patch, if_pos hpre]
    intro hagain
    exact hne (List.IsPrefix.eq_of_length (List.prefix_of_prefix_length_le hagain
      (List.prefix_append _ _) (Nat.le_of_eq hlen)) hlen)

/-- The bound on the rounds goes down with each of them. -/
theorem rounds_of_found {rounds i j : Nat} {s : Bytes}
    (hrounds : s.length < rounds + 1 + j ∨ ¬ src <+: s.drop j ∧ s.length ≤ rounds + 1 + j)
    (hji : j ≤ i) (hpre : src <+: s.drop i) : s.length ≤ rounds + i := by
  rcases hrounds with h | ⟨hj', h⟩
  · omega
  · have hij : i ≠ j := by
      rintro rfl
      exact hj' hpre
    omega

/-- The loop is the sweep.  A round is needed for each place still to be
    visited; the place `j` itself needs none after something was replaced
    there. -/
theorem rewriteLoop_eq_sweep (hlen : src.length = dst.length) (hne : src ≠ dst)
    (offsetShift : Nat) {rounds j : Nat} {s : Bytes} {found : Finset Nat} (hj : j ≤ s.length)
    (hrounds : s.length < rounds + j ∨ ¬ src <+: s.drop j ∧ s.length ≤ rounds + j) :
    rewriteLoop src dst offsetShift rounds j s found
      = (s.take j ++ (sweep src dst j (s.drop j)).1,
         found ∪ ((sweep src dst j (s.drop j)).2.map fun i => (i + offsetShift) % 2 ^ 64).toFinset) := by
  induction rounds generalizing j s found with
  | zero =>
      have hend : s.drop j = [] := List.drop_eq_nil_of_le (by omega)
      rw [rewriteLoop, hend, sweep_nil]
      simp [List.take_of_length_le (show s.length ≤ j by omega)]
  | succ rounds ih =>
      rw [rewriteLoop]
      cases hfind : findFrom src s j with
      | none =>
          have hnone := findFrom_eq_none hfind
          have hskip := sweep_skip (s := s.drop j) hlen j (Nat.le_refl _) (by
            intro i hi
            rw [List.length_drop] at hi
            rw [List.drop_drop]
            exact hnone (j + i) (by omega) (by omega))
          rw [List.drop_eq_nil_of_le (Nat.le_refl _), sweep_nil, List.take_length,
            List.append_nil] at hskip
          rw [hskip]
          simp
      | some i =>
          obtain ⟨hji, hi, hpre, hbefore⟩ := findFrom_eq_some hfind
          obtain ⟨hlen', hnot⟩ := replaceAt_round hlen hne hi hpre
          have hmore := rounds_of_found hrounds hji hpre
          have hskip := sweep_skip (s := s.drop j) (m := i - j) hlen j
            (by rw [List.length_drop]; omega) (by
              intro m hm
              rw [List.drop_drop]
              exact hbefore (j + m) (by omega) (by omega))
          rw [List.drop_drop, show j + (i - j) = i by omega] at hskip
          have htake : s.take j ++ (s.drop j).take (i - j) = s.take i := by
            rw [← List.take_add, show j + (i - j) = i by omega]
          have hrec := @ih i _ (insert ((i + offsetShift) % 2 ^ 64) found)
            (by rw [hlen']; exact hi) (Or.inr ⟨hnot, by rw [hlen']; exact hmore⟩)
          rw [drop_replaceAt hi hpre, take_replaceAt hi] at hrec
          show rewriteLoop src dst offsetShift rounds i _ _ = _
          rw [hrec, hskip, sweep_of_hit hlen hne i hpre]
          simp only [← List.append_assoc, htake, List.map_cons, List.toFinset_cons,
            Finset.insert_union, Finset.union_insert]

/-- `rewriteStrings` with one rewrite. -/
theorem rewriteStrings_single (hlen : src.length = dst.length) (hne : src ≠ dst) (s : Bytes)
    (found : Finset Nat) (offsetShift : Nat) :
    rewriteStrings s [(src, dst)] found offsetShift
      = ((sweep src dst 0 s).1,
         found ∪ ((sweep src dst 0 s).2.map fun i => (i + offsetShift) % 2 ^ 64).toFinset) := by
  simp only [rewriteStrings, List.foldl_cons, List.foldl_nil, if_neg hne]
  rw [rewriteLoop_eq_sweep hlen hne offsetShift (Nat.zero_le _) (Or.inl (by omega))]
  rfl

/-- The `while` loop of `rewriteStrings` as the source has it, without a bound on
    its rounds: it ends when nothing is found, or goes on with another round. -/
inductive LoopEnds (src dst : Bytes) (offsetShift : Nat) :
    Nat → Bytes → Finset Nat → Bytes × Finset Nat → Prop where
  | done {j : Nat} {s : Bytes} {found : Finset Nat} :
      findFrom src s j = none → LoopEnds src dst offsetShift j s found (s, found)
  | round {i j : Nat} {s : Bytes} {found : Finset Nat} {r : Bytes × Finset Nat} :
      findFrom src s j = some i →
      LoopEnds src dst offsetShift i (replaceAt s i src.length dst)
        (insert ((i + offsetShift) % 2 ^ 64) found) r →
      LoopEnds src dst offsetShift j s found r

/-- The loop ends, within as many rounds as the bound allows. -/
theorem rewriteLoop_ends (hlen : src.length = dst.length) (hne : src ≠ dst)
    (offsetShift : Nat) {rounds j : Nat} {s : Bytes} {found : Finset Nat} (hj : j ≤ s.length)
    (hrounds : s.length < rounds + j ∨ ¬ src <+: s.drop j ∧ s.length ≤ rounds + j) :
    LoopEnds src dst offsetShift j s found (rewriteLoop src dst offsetShift rounds j s found) := by
  induction rounds generalizing j s found with
  | zero =>
      refine LoopEnds.done ?_
      cases hfind : findFrom src s j with
      | none => rfl
      | some i =>
          -- nothing is left but the place that was just replaced
          obtain ⟨hji, hi, hpre, -⟩ := findFrom_eq_some hfind
          rcases hrounds with h | ⟨hj', h⟩
          · omega
          · have hij : i = j := by omega
            exact absurd (hij ▸ hpre) hj'
  | succ rounds ih =>
      rw [rewriteLoop]
      cases hfind : findFrom src s j with
      | none => exact LoopEnds.done hfind
      | some i =>
          obtain ⟨hji, hi, hpre, -⟩ := findFrom_eq_some hfind
          obtain ⟨hlen', hnot⟩ := replaceAt_round hlen hne hi hpre
          have hmore := rounds_of_found hrounds hji hpre
          exact LoopEnds.round hfind
            (ih (by rw [hlen']; exact hi) (Or.inr ⟨hnot, by rw [hlen']; exact hmore⟩))

theorem rewriteStrings_ends (hlen : src.length = dst.length) (hne : src ≠ dst) (s : Bytes)
    (found : Finset Nat) (offsetShift : Nat) :
    LoopEnds src dst offsetShift 0 s found
      (rewriteStrings s [(src, dst)] found offsetShift) := by
  simp only [rewriteStrings, List.foldl_cons, List.foldl_nil, if_neg hne]
  exact rewriteLoop_ends hlen hne offsetShift (Nat.zero_le _) (Or.inl (by omega))

end Loop

/-! ## `RewritingSink` -/

/-- `RewritingSink`.  The constructor asserts that every rewrite keeps the
    size. -/
structure RewritingSink where
  rewrites : List (Bytes × Bytes)
  sizes : ∀ r ∈ rewrites, r.1.length = r.2.length
  prev : Bytes := []
  /-- What has been passed to `nextSink`. -/
  nextSink : Bytes := []
  pos : Nat := 0
  /-- The member `matches`. -/
  found : Finset Nat := ∅

namespace RewritingSink

/-- The member `maxRewriteSize`, which the constructor computes. -/
def maxRewriteSize (sink : RewritingSink) : Nat :=
  sink.rewrites.foldl (fun size r => max size r.1.length) 0

/-- What `operator()` holds back of the rewritten text. -/
def heldBack (maxRewriteSize : Nat) (s : Bytes) : Bytes :=
  if s.length < maxRewriteSize then s
  else if maxRewriteSize = 0 then []
  else (s.drop (s.length - maxRewriteSize + 1)).take (maxRewriteSize - 1)

/-- `RewritingSink::operator()`. -/
def write (sink : RewritingSink) (data : Bytes) : RewritingSink :=
  let r := rewriteStrings (sink.prev ++ data) sink.rewrites sink.found sink.pos
  let prev := heldBack sink.maxRewriteSize r.1
  let consumed := r.1.length - prev.length
  { sink with
    prev := prev
    pos := (sink.pos + consumed) % 2 ^ 64
    found := r.2
    nextSink := sink.nextSink ++ r.1.take consumed }

/-- `RewritingSink::flush`. -/
def flush (sink : RewritingSink) : RewritingSink :=
  if sink.prev = [] then sink
  else
    { sink with
      prev := []
      pos := (sink.pos + sink.prev.length) % 2 ^ 64
      nextSink := sink.nextSink ++ sink.prev }

/-- A sink for one rewrite. -/
def single (src dst : Bytes) (hlen : src.length = dst.length) : RewritingSink where
  rewrites := [(src, dst)]
  sizes := by
    intro r hr
    rw [List.mem_singleton.mp hr]
    exact hlen

/-- The sink after the bytes `all`: the swept text is passed on but for the
    last `src.length - 1` bytes. -/
structure After (src dst all : Bytes) (sink : RewritingSink) : Prop where
  rewrites : sink.rewrites = [(src, dst)]
  nextSink : sink.nextSink = (sweep src dst 0 all).1.take (all.length + 1 - src.length)
  prev : sink.prev = (sweep src dst 0 all).1.drop (all.length + 1 - src.length)
  pos : sink.pos = (all.length + 1 - src.length) % 2 ^ 64
  found : sink.found = ((sweep src dst 0 all).2.map (· % 2 ^ 64)).toFinset

section Single

variable {src dst : Bytes} (hlen : src.length = dst.length)

theorem heldBack_eq_drop {n : Nat} (hn : 0 < n) (s : Bytes) :
    heldBack n s = s.drop (s.length + 1 - n) := by
  unfold heldBack
  by_cases hshort : s.length < n
  · rw [if_pos hshort, show s.length + 1 - n = 0 by omega, List.drop_zero]
  · rw [if_neg hshort, if_neg (by omega), show s.length - n + 1 = s.length + 1 - n by omega]
    exact List.take_of_length_le (by rw [List.length_drop]; omega)

theorem after_single (hpos : 0 < src.length) : After src dst [] (single src dst hlen) := by
  have h0 : ([] : Bytes).length + 1 - src.length = 0 := by
    rw [List.length_nil]
    omega
  exact ⟨rfl, by rw [h0]; rfl, by rw [h0]; rfl, by rw [h0]; rfl, rfl⟩

include hlen

/-- Different words of the same size are not empty. -/
theorem length_pos_of_ne (hne : src ≠ dst) : 0 < src.length := by
  by_contra hzero
  have hsrc : src.length = 0 := by omega
  exact hne ((List.length_eq_zero_iff.mp hsrc).trans
    (List.length_eq_zero_iff.mp (hlen ▸ hsrc)).symm)

/-- A write advances the sweep by its bytes. -/
theorem After.write (hpos : 0 < src.length) (hne : src ≠ dst) {all : Bytes} {sink : RewritingSink}
    (h : After src dst all sink) (data : Bytes) :
    After src dst (all ++ data) (sink.write data) := by
  have hmax : sink.maxRewriteSize = src.length := by
    rw [maxRewriteSize, h.rewrites]
    exact Nat.zero_max _
  have hout := sweep_length hlen 0 all
  -- the number of bytes passed on so far, and after this write
  obtain ⟨k, hk⟩ : ∃ k, k = all.length + 1 - src.length := ⟨_, rfl⟩
  have hcut := sweep_append hlen hpos 0 all data hk
  obtain ⟨hrewrites, hnext, hprev, hposn, hfound⟩ := h
  rw [← hk] at hnext hprev hposn
  rw [← hprev, ← hnext, sweep_shift hlen 0 k] at hcut
  have hprevlen : sink.prev.length = all.length - k := by rw [hprev, List.length_drop, hout]
  have hnextlen : sink.nextSink.length = k := by
    rw [hnext, List.length_take, hout]
    omega
  have hrw := rewriteStrings_single hlen hne (sink.prev ++ data) sink.found sink.pos
  obtain ⟨s, hs⟩ : ∃ s, s = (sweep src dst 0 (sink.prev ++ data)).1 := ⟨_, rfl⟩
  have hslen : s.length = all.length - k + data.length := by
    rw [hs, sweep_length hlen, List.length_append, hprevlen]
  rw [← hs] at hrw hcut
  have hconsumed : s.length - (s.drop (s.length + 1 - src.length)).length
      = s.length + 1 - src.length := by
    rw [List.length_drop]
    omega
  have hk' : (all ++ data).length + 1 - src.length = k + (s.length + 1 - src.length) := by
    rw [List.length_append]
    omega
  have hwrite : sink.write data = { sink with
      prev := s.drop (s.length + 1 - src.length)
      pos := (sink.pos + (s.length + 1 - src.length)) % 2 ^ 64
      found := (rewriteStrings (sink.prev ++ data) [(src, dst)] sink.found sink.pos).2
      nextSink := sink.nextSink ++ s.take (s.length + 1 - src.length) } := by
    simp only [RewritingSink.write, hrewrites, hrw, hmax, heldBack_eq_drop hpos, hconsumed]
  rw [hwrite]
  refine ⟨hrewrites, ?_, ?_, ?_, ?_⟩
  · rw [hk', hcut, ← hnextlen, List.take_length_add_append]
  · rw [hk', hcut, ← hnextlen, List.drop_length_add_append]
  · show (sink.pos + (s.length + 1 - src.length)) % 2 ^ 64 = _
    rw [hk', hposn, Nat.mod_add_mod]
  · show (rewriteStrings _ _ _ _).2 = _
    have hshift : (fun i => (i + sink.pos) % 2 ^ 64) = (· % 2 ^ 64) ∘ (· + k) := by
      funext i
      rw [hposn]
      exact Nat.add_mod_mod i k (2 ^ 64)
    rw [hrw, hcut, hfound, hshift, List.map_append, List.toFinset_append, List.map_map]

/-- Any number of writes advance the sweep by all their bytes. -/
theorem After.writes (hpos : 0 < src.length) (hne : src ≠ dst) {all : Bytes} {sink : RewritingSink}
    (h : After src dst all sink) (chunks : List Bytes) :
    After src dst (all ++ chunks.flatten) (chunks.foldl RewritingSink.write sink) := by
  induction chunks generalizing all sink with
  | nil => simpa using h
  | cons data chunks ih =>
      rw [List.flatten_cons, ← List.append_assoc, List.foldl_cons]
      exact ih (h.write hlen hpos hne data)

/-- After the last write and a flush, the sink has passed on the swept stream,
    however the stream was cut. -/
theorem run_flush (hpos : 0 < src.length) (hne : src ≠ dst) (chunks : List Bytes) :
    let sink := (chunks.foldl RewritingSink.write (single src dst hlen)).flush
    sink.nextSink = (sweep src dst 0 chunks.flatten).1 ∧
      sink.found = ((sweep src dst 0 chunks.flatten).2.map (· % 2 ^ 64)).toFinset ∧
      sink.pos = chunks.flatten.length % 2 ^ 64 := by
  intro sink
  have h := (after_single hlen hpos).writes hlen hpos hne chunks
  rw [List.nil_append] at h
  have hout := sweep_length hlen 0 chunks.flatten
  show (flush _).nextSink = _ ∧ (flush _).found = _ ∧ (flush _).pos = _
  unfold flush
  by_cases hprev : (chunks.foldl RewritingSink.write (single src dst hlen)).prev = []
  · rw [if_pos hprev]
    have hend : chunks.flatten.length ≤ chunks.flatten.length + 1 - src.length := by
      rw [h.prev, List.drop_eq_nil_iff] at hprev
      omega
    refine ⟨?_, h.found, ?_⟩
    · rw [h.nextSink, List.take_of_length_le (by omega)]
    · rw [h.pos, show chunks.flatten.length + 1 - src.length = chunks.flatten.length by omega]
  · rw [if_neg hprev]
    refine ⟨?_, h.found, ?_⟩
    · show _ ++ _ = _
      rw [h.nextSink, h.prev, List.take_append_drop]
    · show (_ + _) % 2 ^ 64 = _
      rw [h.pos, h.prev, List.length_drop, hout, Nat.mod_add_mod]
      congr 1
      omega

omit hlen in
/-- What is held back is the end of the rewritten text. -/
theorem take_append_heldBack (n : Nat) (s : Bytes) :
    s.take (s.length - (heldBack n s).length) ++ heldBack n s = s := by
  by_cases hn : n = 0
  · have hnone : heldBack n s = [] := by
      rw [heldBack, if_neg (by omega), if_pos hn]
    rw [hnone, List.length_nil, Nat.sub_zero, List.take_length, List.append_nil]
  · rw [heldBack_eq_drop (Nat.pos_of_ne_zero hn), List.length_drop]
    have hcut : s.length - (s.length - (s.length + 1 - n)) = s.length + 1 - n := by omega
    rw [hcut, List.take_append_drop]

/-- A rewrite to itself is left out, and the stream is passed on as it is. -/
theorem run_flush_same (hsame : src = dst) (chunks : List Bytes) :
    let sink := (chunks.foldl RewritingSink.write (single src dst hlen)).flush
    sink.nextSink = chunks.flatten ∧ sink.found = ∅ ∧
      sink.pos = chunks.flatten.length % 2 ^ 64 := by
  have hgo : ∀ (all : Bytes) (sink : RewritingSink), sink.rewrites = [(src, dst)] →
      sink.found = ∅ → sink.nextSink ++ sink.prev = all →
      sink.pos = sink.nextSink.length % 2 ^ 64 → ∀ chunks : List Bytes,
      ((chunks.foldl RewritingSink.write sink).flush).nextSink = all ++ chunks.flatten ∧
        ((chunks.foldl RewritingSink.write sink).flush).found = ∅ ∧
        ((chunks.foldl RewritingSink.write sink).flush).pos
          = (all ++ chunks.flatten).length % 2 ^ 64 := by
    intro all sink hrewrites hfound hall hposn chunks
    induction chunks generalizing all sink with
    | nil =>
        rw [List.foldl_nil, List.flatten_nil, List.append_nil, ← hall]
        unfold flush
        by_cases hprev : sink.prev = []
        · rw [if_pos hprev, hprev, List.append_nil]
          exact ⟨rfl, hfound, hposn⟩
        · rw [if_neg hprev]
          refine ⟨rfl, hfound, ?_⟩
          show (sink.pos + sink.prev.length) % 2 ^ 64 = _
          rw [hposn, Nat.mod_add_mod, List.length_append]
    | cons data chunks ih =>
        have hrw : rewriteStrings (sink.prev ++ data) [(src, dst)] sink.found sink.pos
            = (sink.prev ++ data, sink.found) := by
          simp only [rewriteStrings, List.foldl_cons, List.foldl_nil, if_pos hsame]
        obtain ⟨s, hs⟩ : ∃ s, s = sink.prev ++ data := ⟨_, rfl⟩
        have hcut := take_append_heldBack sink.maxRewriteSize s
        have hwrite : sink.write data = { sink with
            prev := heldBack sink.maxRewriteSize s
            pos := (sink.pos + (s.length - (heldBack sink.maxRewriteSize s).length)) % 2 ^ 64
            nextSink := sink.nextSink ++
              s.take (s.length - (heldBack sink.maxRewriteSize s).length) } := by
          simp only [RewritingSink.write, hrewrites, hrw, hs]
        rw [List.foldl_cons, List.flatten_cons, ← List.append_assoc, hwrite]
        refine ih (all ++ data) _ hrewrites hfound ?_ ?_
        · show sink.nextSink ++ _ ++ _ = _
          rw [List.append_assoc, hcut, hs, ← List.append_assoc, hall]
        · show (sink.pos + _) % 2 ^ 64 = (sink.nextSink ++ _).length % 2 ^ 64
          rw [hposn, Nat.mod_add_mod, List.length_append, List.length_take, Nat.min_eq_left
            (Nat.sub_le _ _)]
  intro sink
  have h := hgo [] (single src dst hlen) rfl rfl rfl rfl chunks
  rw [List.nil_append] at h
  exact h

/-- A sink for one rewrite does not depend on how the stream is cut: it passes on
    and records what `rewriteStrings` gives for the whole stream.  The loop
    of `rewriteStrings` ends on every text. -/
theorem write_chunk_independent (chunks : List Bytes) :
    let sink := (chunks.foldl RewritingSink.write (single src dst hlen)).flush
    let whole := ([chunks.flatten].foldl RewritingSink.write (single src dst hlen)).flush
    (sink.nextSink = whole.nextSink ∧ sink.found = whole.found ∧ sink.pos = whole.pos) ∧
      (sink.nextSink, sink.found) = rewriteStrings chunks.flatten [(src, dst)] ∅ 0 ∧
      ∀ s found offsetShift, src ≠ dst →
        LoopEnds src dst offsetShift 0 s found
          (rewriteStrings s [(src, dst)] found offsetShift) := by
  intro sink whole
  refine ⟨?_, ?_, fun s found offsetShift hne => rewriteStrings_ends hlen hne s found offsetShift⟩
  · by_cases hsame : src = dst
    · obtain ⟨hnext, hfound, hpos⟩ := run_flush_same hlen hsame chunks
      obtain ⟨hnext', hfound', hpos'⟩ := run_flush_same hlen hsame [chunks.flatten]
      rw [List.flatten_singleton] at hnext' hpos'
      exact ⟨hnext.trans hnext'.symm, hfound.trans hfound'.symm, hpos.trans hpos'.symm⟩
    · have hpos := length_pos_of_ne hlen hsame
      obtain ⟨hnext, hfound, hposn⟩ := run_flush hlen hpos hsame chunks
      obtain ⟨hnext', hfound', hposn'⟩ := run_flush hlen hpos hsame [chunks.flatten]
      rw [List.flatten_singleton] at hnext' hfound' hposn'
      exact ⟨hnext.trans hnext'.symm, hfound.trans hfound'.symm, hposn.trans hposn'.symm⟩
  · by_cases hsame : src = dst
    · obtain ⟨hnext, hfound, -⟩ := run_flush_same hlen hsame chunks
      show (_, _) = _
      rw [hnext, hfound]
      simp only [rewriteStrings, List.foldl_cons, List.foldl_nil, if_pos hsame]
    · obtain ⟨hnext, hfound, -⟩ := run_flush hlen (length_pos_of_ne hlen hsame) hsame chunks
      show (_, _) = _
      rw [hnext, hfound, rewriteStrings_single hlen hsame, Finset.empty_union]
      rfl

omit hlen in
/-- The second of two overlapping occurrences only forms when the first one has
    been replaced, and is cut in three. -/
theorem write_chunk_independent_overlap :
    ((([ascii "a", ascii "b", ascii "b"].foldl RewritingSink.write
      (single (ascii "ab") (ascii "aa") rfl)).flush).nextSink
      = (([(ascii "abb")].foldl RewritingSink.write
        (single (ascii "ab") (ascii "aa") rfl)).flush).nextSink) :=
  (@write_chunk_independent (ascii "ab") (ascii "aa") rfl [ascii "a", ascii "b", ascii "b"]).1.1

end Single

end RewritingSink

/-! ## `HashModuloSink` -/

/-- The text `fmt("|%d", pos)`. -/
def positionText (pos : Nat) : Bytes := ascii "|" ++ decimal pos

/-- The `RewritingSink` of a `HashModuloSink`: the modulus is zeroed out. -/
def modulusSink (modulus : Bytes) : RewritingSink :=
  RewritingSink.single modulus (List.replicate modulus.length 0) List.length_replicate.symm

/-- Everything a `HashModuloSink` has passed to its `hashSink` when `finish`
    asks it for the hash, after the writes `chunks`. -/
def hashModuloInput (modulus : Bytes) (chunks : List Bytes) : Bytes :=
  let rewritingSink := (chunks.foldl RewritingSink.write (modulusSink modulus)).flush
  rewritingSink.nextSink ++ (rewritingSink.found.sort (· ≤ ·)).flatMap positionText

end NixStore
