/-
  NixStore.Lib.Sweep

  Replacing every occurrence of a word from left to right, over any alphabet.

  `sweep src dst p s` goes through `s` once.  Where `src` stands at the front
  of what is left, it is overwritten by `dst` (of the same length) and the
  position is recorded; then one symbol is emitted.  What was overwritten is
  read again, so a replacement may form a new occurrence together with what
  follows it.  Positions count from `p`.

  The results: the sweep loses nothing (`sweep_inj`), it can be done in
  pieces if the last `src.length - 1` symbols are carried over
  (`sweep_append`), and a symbol that is not in `src` cuts it in two
  (`sweep_barrier`).
-/

import Mathlib.Data.List.Basic
import Mathlib.Tactic.Common

namespace NixStore
namespace Sweep

variable {α : Type} [DecidableEq α]

/-- Overwrite an occurrence of `src` at the front of `s`. -/
def patch (src dst s : List α) : List α :=
  if src <+: s then dst ++ s.drop src.length else s

/-- The sweep, with a bound on the number of symbols to emit. -/
def sweepFor (src dst : List α) : Nat → Nat → List α → List α × List Nat
  | 0, _, s => (s, [])
  | fuel + 1, p, s =>
      match patch src dst s with
      | [] => ([], [])
      | c :: t =>
          let r := sweepFor src dst fuel (p + 1) t
          (c :: r.1, if src <+: s then p :: r.2 else r.2)

/-- The text after the sweep, and where `src` was found. -/
def sweep (src dst : List α) (p : Nat) (s : List α) : List α × List Nat :=
  sweepFor src dst s.length p s

section Laws

variable {src dst : List α}

@[simp] theorem sweep_nil (p : Nat) : sweep src dst p [] = ([], []) := rfl

theorem length_patch (hlen : src.length = dst.length) (s : List α) :
    (patch src dst s).length = s.length := by
  unfold patch
  by_cases h : src <+: s
  · have hle := h.length_le
    rw [if_pos h, List.length_append, List.length_drop]
    omega
  · rw [if_neg h]

/-- One step: overwrite at the front, record, emit one symbol. -/
theorem sweep_step (hlen : src.length = dst.length) (p : Nat) {s : List α} (hs : s ≠ []) :
    ∃ c t, patch src dst s = c :: t ∧ t.length + 1 = s.length ∧
      sweep src dst p s = (c :: (sweep src dst (p + 1) t).1,
        if src <+: s then p :: (sweep src dst (p + 1) t).2 else (sweep src dst (p + 1) t).2) := by
  have hl := length_patch hlen s
  have hpos : 0 < s.length := List.length_pos_iff.mpr hs
  cases hp : patch src dst s with
  | nil =>
      rw [hp, List.length_nil] at hl
      omega
  | cons c t =>
      rw [hp, List.length_cons] at hl
      refine ⟨c, t, rfl, hl, ?_⟩
      unfold sweep
      rw [← hl, sweepFor, hp]

/-- A step that finds nothing copies one symbol. -/
theorem sweep_cons_of_miss (hlen : src.length = dst.length) (p : Nat) {b : α} {s : List α}
    (h : ¬ src <+: b :: s) :
    sweep src dst p (b :: s)
      = (b :: (sweep src dst (p + 1) s).1, (sweep src dst (p + 1) s).2) := by
  obtain ⟨c, t, hpatch, -, hstep⟩ := sweep_step hlen p (List.cons_ne_nil b s)
  rw [patch, if_neg h] at hpatch
  cases hpatch
  rw [hstep, if_neg h]

theorem sweep_length (hlen : src.length = dst.length) (p : Nat) (s : List α) :
    (sweep src dst p s).1.length = s.length := by
  induction hn : s.length generalizing p s with
  | zero =>
      rw [List.length_eq_zero_iff.mp hn]
      rfl
  | succ n ih =>
      have hs : s ≠ [] := List.ne_nil_of_length_eq_add_one hn
      obtain ⟨c, t, -, ht, hstep⟩ := sweep_step hlen p hs
      rw [hstep, List.length_cons, ih (p + 1) t (by omega)]

/-- A text shorter than `src` stays as it is. -/
theorem sweep_of_short (hlen : src.length = dst.length) (p : Nat) {s : List α}
    (h : s.length < src.length) : sweep src dst p s = (s, []) := by
  induction s generalizing p with
  | nil => rfl
  | cons b s ih =>
      have hnot : ¬ src <+: b :: s := fun hpre => by
        have hle := hpre.length_le
        omega
      rw [List.length_cons] at h
      rw [sweep_cons_of_miss hlen p hnot, ih (p + 1) (by omega)]

/-- A text without `src` stays as it is. -/
theorem sweep_of_absent (hlen : src.length = dst.length) (p : Nat) {s : List α}
    (h : ¬ src <:+: s) : sweep src dst p s = (s, []) := by
  induction s generalizing p with
  | nil => rfl
  | cons b s ih =>
      have hnot : ¬ src <+: b :: s := fun hpre => h hpre.isInfix
      have hrest : ¬ src <:+: s := fun hin => h (hin.trans (List.suffix_cons b s).isInfix)
      rw [sweep_cons_of_miss hlen p hnot, ih (p + 1) hrest]

/-- Occurrences are found in ascending order and lie within the text. -/
theorem sweep_hits (hlen : src.length = dst.length) (p : Nat) (s : List α) :
    (sweep src dst p s).2.Pairwise (· < ·) ∧
      ∀ q ∈ (sweep src dst p s).2, p ≤ q ∧ q + src.length ≤ p + s.length := by
  induction hn : s.length generalizing p s with
  | zero =>
      rw [List.length_eq_zero_iff.mp hn]
      exact ⟨List.Pairwise.nil, fun q hq => absurd hq List.not_mem_nil⟩
  | succ n ih =>
      have hs : s ≠ [] := List.ne_nil_of_length_eq_add_one hn
      obtain ⟨c, t, -, ht, hstep⟩ := sweep_step hlen p hs
      obtain ⟨hasc, hbound⟩ := ih (p + 1) t (by omega)
      rw [hstep]
      by_cases hpre : src <+: s
      · have hle := hpre.length_le
        simp only [if_pos hpre]
        refine ⟨List.pairwise_cons.mpr ⟨?_, hasc⟩, ?_⟩
        · intro q hq
          have := hbound q hq
          omega
        · intro q hq
          rcases List.mem_cons.mp hq with rfl | hq
          · omega
          · have := hbound q hq
            omega
      · simp only [if_neg hpre]
        refine ⟨hasc, ?_⟩
        intro q hq
        have := hbound q hq
        omega

/-- The text before the sweep can be recovered from its result. -/
theorem sweep_inj (hlen : src.length = dst.length) {p : Nat} {s s' : List α}
    (h : sweep src dst p s = sweep src dst p s') : s = s' := by
  have hl : s.length = s'.length := by
    rw [← sweep_length hlen p s, h, sweep_length hlen]
  induction hn : s.length generalizing p s s' with
  | zero =>
      have hn' : s'.length = 0 := by omega
      rw [List.length_eq_zero_iff.mp hn, List.length_eq_zero_iff.mp hn']
  | succ n ih =>
      have hs : s ≠ [] := List.ne_nil_of_length_eq_add_one hn
      have hs' : s' ≠ [] := List.ne_nil_of_length_eq_add_one (hl ▸ hn)
      obtain ⟨c, t, hpatch, ht, hstep⟩ := sweep_step hlen p hs
      obtain ⟨c', t', hpatch', ht', hstep'⟩ := sweep_step hlen p hs'
      rw [hstep, hstep', Prod.mk.injEq, List.cons.injEq] at h
      obtain ⟨⟨hc, hout⟩, hhits⟩ := h
      -- positions found later are past `p`, so `p` is recorded on both sides or on neither
      have hlater (u : List α) : p ∉ (sweep src dst (p + 1) u).2 := by
        intro hmem
        have := ((sweep_hits hlen (p + 1) u).2 p hmem).1
        omega
      by_cases hpre : src <+: s
      · by_cases hpre' : src <+: s'
        · rw [if_pos hpre, if_pos hpre', List.cons.injEq] at hhits
          have htt : t = t' := ih (Prod.ext hout hhits.2) (by omega) (by omega)
          rw [patch, if_pos hpre] at hpatch
          rw [patch, if_pos hpre'] at hpatch'
          have hdrop : s.drop src.length = s'.drop src.length := by
            rw [← hc, ← htt, ← hpatch] at hpatch'
            exact (List.append_cancel_left hpatch').symm
          obtain ⟨u, rfl⟩ := hpre
          obtain ⟨u', rfl⟩ := hpre'
          rw [List.drop_left, List.drop_left] at hdrop
          rw [hdrop]
        · rw [if_pos hpre, if_neg hpre'] at hhits
          exact absurd (hhits ▸ List.mem_cons_self) (hlater t')
      · by_cases hpre' : src <+: s'
        · rw [if_neg hpre, if_pos hpre'] at hhits
          exact absurd (hhits ▸ List.mem_cons_self) (hlater t)
        · rw [if_neg hpre, if_neg hpre'] at hhits
          have htt : t = t' := ih (Prod.ext hout hhits) (by omega) (by omega)
          rw [patch, if_neg hpre] at hpatch
          rw [patch, if_neg hpre'] at hpatch'
          rw [hpatch, hpatch', hc, htt]

/-- Where `src` stands, the sweep records the place and goes on with the
    overwritten text. -/
theorem sweep_of_hit (hlen : src.length = dst.length) (hne : src ≠ dst) (p : Nat) {s : List α}
    (h : src <+: s) :
    sweep src dst p s
      = ((sweep src dst p (patch src dst s)).1, p :: (sweep src dst p (patch src dst s)).2) := by
  have hs : s ≠ [] := by
    intro h0
    rw [h0, List.prefix_nil] at h
    exact hne (h.trans (List.length_eq_zero_iff.mp (by rw [← hlen, h]; rfl)).symm)
  obtain ⟨c, t, hpatch, -, hstep⟩ := sweep_step hlen p hs
  have hnot : ¬ src <+: c :: t := by
    rw [← hpatch, patch, if_pos h]
    intro hpre
    exact hne (List.IsPrefix.eq_of_length
      (List.prefix_of_prefix_length_le hpre (List.prefix_append _ _) (Nat.le_of_eq hlen)) hlen)
  rw [hstep, if_pos h, hpatch, sweep_cons_of_miss hlen p hnot]

/-- Only the recorded positions depend on where counting starts. -/
theorem sweep_shift (hlen : src.length = dst.length) (p q : Nat) (s : List α) :
    sweep src dst (p + q) s = ((sweep src dst p s).1, (sweep src dst p s).2.map (· + q)) := by
  induction hn : s.length generalizing p s with
  | zero =>
      rw [List.length_eq_zero_iff.mp hn]
      rfl
  | succ n ih =>
      have hs : s ≠ [] := List.ne_nil_of_length_eq_add_one hn
      obtain ⟨c, t, hpatch, ht, hstep⟩ := sweep_step hlen p hs
      obtain ⟨c', t', hpatch', -, hstep'⟩ := sweep_step hlen (p + q) hs
      rw [hpatch, List.cons.injEq] at hpatch'
      obtain ⟨rfl, rfl⟩ := hpatch'
      rw [hstep', hstep, Nat.add_right_comm p q 1, ih (p + 1) t (by omega)]
      by_cases hpre : src <+: s
      · simp [if_pos hpre]
      · simp [if_neg hpre]

/-! ## In pieces -/

omit [DecidableEq α] in
/-- Whether `src` stands at the front is decided by the first `src.length`
    symbols. -/
theorem prefix_append_iff {s : List α} (t : List α) (h : src.length ≤ s.length) :
    src <+: s ++ t ↔ src <+: s := by
  constructor
  · intro hpre
    exact List.prefix_of_prefix_length_le hpre (List.prefix_append s t) h
  · intro hpre
    exact hpre.trans (List.prefix_append s t)

theorem patch_append {s t : List α} (h : src <+: s ++ t ↔ src <+: s) :
    patch src dst (s ++ t) = patch src dst s ++ t := by
  unfold patch
  by_cases hpre : src <+: s
  · rw [if_pos hpre, if_pos (h.mpr hpre), List.drop_append_of_le_length hpre.length_le,
      List.append_assoc]
  · rw [if_neg hpre, if_neg (fun h' => hpre (h.mp h'))]

/-- Sweeping a text and then what follows it, where the last
    `src.length - 1` symbols of the swept text are carried over. -/
theorem sweep_append (hlen : src.length = dst.length) (hpos : 0 < src.length) (p : Nat)
    (s t : List α) {k : Nat} (hk : k = s.length + 1 - src.length) :
    sweep src dst p (s ++ t) =
      ((sweep src dst p s).1.take k ++
        (sweep src dst (p + k) ((sweep src dst p s).1.drop k ++ t)).1,
       (sweep src dst p s).2 ++
        (sweep src dst (p + k) ((sweep src dst p s).1.drop k ++ t)).2) := by
  induction k generalizing p s with
  | zero =>
      rw [sweep_of_short hlen p (s := s) (by omega)]
      rfl
  | succ k ih =>
      have hs : s ≠ [] := by
        intro h
        rw [h, List.length_nil] at hk
        omega
      have hst : s ++ t ≠ [] := by
        intro h
        exact hs (List.append_eq_nil_iff.mp h).1
      have hfront := prefix_append_iff t (show src.length ≤ s.length by omega)
      obtain ⟨c, u, hpatch, hu, hstep⟩ := sweep_step hlen p hs
      obtain ⟨c', u', hpatch', -, hstep'⟩ := sweep_step hlen p hst
      rw [patch_append hfront, hpatch, List.cons_append, List.cons.injEq] at hpatch'
      obtain ⟨rfl, rfl⟩ := hpatch'
      rw [hstep', hstep, ih (p + 1) u (by omega), Nat.add_right_comm p 1 k]
      by_cases hpre : src <+: s
      · simp [if_pos hpre, if_pos (hfront.mpr hpre), Nat.add_assoc]
      · simp [if_neg hpre, if_neg (fun h => hpre (hfront.mp h)), Nat.add_assoc]

/-- No occurrence of `src` contains a symbol that is not in it, so such a
    symbol cuts the sweep in two. -/
theorem sweep_barrier (hlen : src.length = dst.length) (hpos : 0 < src.length) {b : α}
    (hb : b ∉ src) (p : Nat) (a s : List α) :
    sweep src dst p (a ++ b :: s) =
      ((sweep src dst p a).1 ++ b :: (sweep src dst (p + a.length + 1) s).1,
       (sweep src dst p a).2 ++ (sweep src dst (p + a.length + 1) s).2) := by
  -- an occurrence that reaches past `a` would contain `b`
  have hfront (u : List α) : src <+: u ++ b :: s ↔ src <+: u := by
    by_cases hle : src.length ≤ u.length
    · exact prefix_append_iff (b :: s) hle
    · constructor
      · rintro ⟨v, hv⟩
        have hmem : b ∈ src := by
          have hget := congrArg (fun l => l[u.length]?) hv
          rw [List.getElem?_append_left (by omega), List.getElem?_append_right (Nat.le_refl _),
            Nat.sub_self, List.getElem?_cons_zero] at hget
          exact List.mem_of_getElem? hget
        exact absurd hmem hb
      · intro h
        exact absurd h.length_le hle
  induction hn : a.length generalizing p a with
  | zero =>
      rw [List.length_eq_zero_iff.mp hn, List.nil_append, sweep_nil]
      have hnot : ¬ src <+: b :: s := by
        intro h
        have hle := ((hfront []).mp h).length_le
        rw [List.length_nil] at hle
        omega
      rw [sweep_cons_of_miss hlen p hnot]
      rfl
  | succ n ih =>
      have ha : a ≠ [] := List.ne_nil_of_length_eq_add_one hn
      have has : a ++ b :: s ≠ [] := by
        intro h
        exact ha (List.append_eq_nil_iff.mp h).1
      obtain ⟨c, u, hpatch, hu, hstep⟩ := sweep_step hlen p ha
      obtain ⟨c', u', hpatch', -, hstep'⟩ := sweep_step hlen p has
      rw [patch_append (hfront a), hpatch, List.cons_append, List.cons.injEq] at hpatch'
      obtain ⟨rfl, rfl⟩ := hpatch'
      rw [hstep', hstep, ih (p + 1) u (by omega)]
      have hshift : p + 1 + n + 1 = p + (n + 1) + 1 := by omega
      by_cases hpre : src <+: a
      · simp [if_pos hpre, if_pos ((hfront a).mpr hpre), hshift]
      · simp [if_neg hpre, if_neg (fun h => hpre ((hfront a).mp h)), hshift]

/-- Where `src` does not stand, the sweep copies. -/
theorem sweep_skip (hlen : src.length = dst.length) (p : Nat) {m : Nat} {s : List α}
    (hm : m ≤ s.length) (h : ∀ i < m, ¬ src <+: s.drop i) :
    sweep src dst p s =
      (s.take m ++ (sweep src dst (p + m) (s.drop m)).1, (sweep src dst (p + m) (s.drop m)).2) := by
  induction m generalizing p s with
  | zero => rfl
  | succ m ih =>
      cases s with
      | nil => exact absurd hm (Nat.not_succ_le_zero m)
      | cons b s =>
          have htail : ∀ i < m, ¬ src <+: s.drop i := by
            intro i hi
            exact h (i + 1) (by omega)
          rw [sweep_cons_of_miss hlen p (h 0 (by omega)),
            ih (p + 1) (by simpa using hm) htail, Nat.add_right_comm p 1 m]
          rfl

end Laws

end Sweep
end NixStore
