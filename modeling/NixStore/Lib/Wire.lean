/-
  NixStore.Lib.Wire

  Length-prefixed byte strings: little-endian words of a fixed width, and
  frames made of an 8-byte length, the payload, and zero bytes up to the next
  multiple of eight.

  The facts a codec needs about them are the two inverse laws of the words
  (`leNat_leBytes`, `leBytes_leNat`) and the cancellation law of the frames
  (`frame_append_inj`): a frame can be split off the front of any stream in
  one way only.
-/

import Mathlib.Data.List.Basic
import Mathlib.Data.List.GetD
import Mathlib.Data.Nat.Basic
import Mathlib.Tactic.Ring

namespace NixStore

/-- A byte string. -/
abbrev Bytes := List UInt8

namespace Wire

/-! ## Little-endian words -/

/-- The `w` low bytes of `n`, least significant first. -/
def leBytes : Nat → Nat → Bytes
  | 0, _ => []
  | w + 1, n => UInt8.ofNat (n % 256) :: leBytes w (n / 256)

/-- The number a little-endian byte string denotes. -/
def leNat : Bytes → Nat
  | [] => 0
  | b :: bs => b.toNat + 256 * leNat bs

@[simp] theorem leBytes_length (w n : Nat) : (leBytes w n).length = w := by
  induction w generalizing n with
  | zero => rfl
  | succ w ih => simp [leBytes, ih]

theorem leNat_lt (bs : Bytes) : leNat bs < 256 ^ bs.length := by
  induction bs with
  | nil => simp [leNat]
  | cons b bs ih =>
      have hb : b.toNat < 256 := b.toNat_lt
      simp only [leNat, List.length_cons, Nat.pow_succ]
      omega

theorem leNat_leBytes {w n : Nat} (h : n < 256 ^ w) : leNat (leBytes w n) = n := by
  induction w generalizing n with
  | zero => simp only [Nat.pow_zero, Nat.lt_one_iff] at h; simp [leBytes, leNat, h]
  | succ w ih =>
      have hdiv : n / 256 < 256 ^ w := by
        rw [Nat.pow_succ, Nat.mul_comm] at h
        exact Nat.div_lt_of_lt_mul h
      have hlow : (UInt8.ofNat (n % 256)).toNat = n % 256 := by simp
      simp only [leBytes, leNat, ih hdiv, hlow]
      omega

theorem leBytes_leNat (bs : Bytes) : leBytes bs.length (leNat bs) = bs := by
  induction bs with
  | nil => rfl
  | cons b bs ih =>
      have hb : b.toNat < 256 := b.toNat_lt
      have hmod : (b.toNat + 256 * leNat bs) % 256 = b.toNat := by omega
      have hdiv : (b.toNat + 256 * leNat bs) / 256 = leNat bs := by omega
      simp only [List.length_cons, leBytes, leNat, hmod, hdiv, ih, UInt8.ofNat_toNat]

theorem leNat_inj {as bs : Bytes} (hlen : as.length = bs.length) (h : leNat as = leNat bs) :
    as = bs := by
  rw [← leBytes_leNat as, ← leBytes_leNat bs, hlen, h]

theorem leNat_append (as bs : Bytes) :
    leNat (as ++ bs) = leNat as + 256 ^ as.length * leNat bs := by
  induction as with
  | nil => simp [leNat]
  | cons a as ih =>
      simp only [List.cons_append, leNat, ih, List.length_cons, Nat.pow_succ]
      ring

theorem leNat_zeros (n : Nat) : leNat (List.replicate n 0) = 0 := by
  induction n with
  | zero => rfl
  | succ n ih => simp [List.replicate_succ, leNat, ih]

/-- Dropping bytes at the low end divides. -/
theorem leNat_drop (bs : Bytes) (i : Nat) : leNat (bs.drop i) = leNat bs / 256 ^ i := by
  induction bs generalizing i with
  | nil => simp [leNat]
  | cons b bs ih =>
      cases i with
      | zero => simp
      | succ i =>
          have hb : b.toNat < 256 := b.toNat_lt
          have hdiv : (b.toNat + 256 * leNat bs) / 256 = leNat bs := by omega
          rw [List.drop_succ_cons, ih, leNat, Nat.pow_succ', ← Nat.div_div_eq_div_mul, hdiv]

theorem leNat_getElem (bs : Bytes) (i : Nat) :
    leNat bs / 256 ^ i % 256 = (bs.getD i 0).toNat := by
  rw [← leNat_drop]
  by_cases h : i < bs.length
  · have hb : bs[i].toNat < 256 := bs[i].toNat_lt
    rw [List.drop_eq_getElem_cons h, leNat, List.getD_eq_getElem _ _ h]
    omega
  · rw [List.drop_eq_nil_of_le (by omega), List.getD_eq_default _ _ (by omega)]
    rfl

/-- Adding to one byte without a carry. -/
theorem leNat_modify {bs : Bytes} {i x : Nat} (h : i < bs.length)
    (hx : (bs.getD i 0).toNat + x < 256) :
    leNat (bs.modify i fun b => UInt8.ofNat (b.toNat + x)) = leNat bs + x * 256 ^ i := by
  induction bs generalizing i with
  | nil => exact absurd h (Nat.not_lt_zero i)
  | cons b bs ih =>
      cases i with
      | zero =>
          have hb : (UInt8.ofNat (b.toNat + x)).toNat = b.toNat + x := by
            rw [UInt8.toNat_ofNat', Nat.mod_eq_of_lt (by simpa using hx)]
          simp only [List.modify_zero_cons, leNat, hb, Nat.pow_zero]
          omega
      | succ i =>
          simp only [List.length_cons] at h
          simp only [List.modify_succ_cons, leNat, ih (Nat.lt_of_succ_lt_succ h) (by simpa using hx),
            Nat.pow_succ]
          ring

/-! ## Alignment -/

/-- How many bytes bring a length of `n` to the next multiple of eight. -/
def padLen (n : Nat) : Nat := (8 - n % 8) % 8

theorem padLen_of_dvd {n : Nat} (h : n % 8 = 0) : padLen n = 0 := by
  simp [padLen, h]

theorem padLen_of_not_dvd {n : Nat} (h : n % 8 ≠ 0) : padLen n = 8 - n % 8 := by
  unfold padLen
  omega

/-! ## Frames -/

/-- A length-prefixed byte string, zero-padded to a multiple of eight. -/
def frame (s : Bytes) : Bytes :=
  leBytes 8 s.length ++ s ++ List.replicate (padLen s.length) 0

@[simp] theorem frame_length (s : Bytes) :
    (frame s).length = 8 + s.length + padLen s.length := by
  simp [frame, Nat.add_assoc]

theorem leBytes_append_inj {w m n : Nat} {r r' : Bytes}
    (hm : m < 256 ^ w) (hn : n < 256 ^ w)
    (h : leBytes w m ++ r = leBytes w n ++ r') : m = n ∧ r = r' := by
  obtain ⟨hword, hrest⟩ := List.append_inj h (by simp)
  have hval := congrArg leNat hword
  rw [leNat_leBytes hm, leNat_leBytes hn] at hval
  exact ⟨hval, hrest⟩

/-- A frame is split off the front of a stream in one way only. -/
theorem frame_append_inj {s t r r' : Bytes}
    (hs : s.length < 2 ^ 64) (ht : t.length < 2 ^ 64)
    (h : frame s ++ r = frame t ++ r') : s = t ∧ r = r' := by
  have hpow : (256 : Nat) ^ 8 = 2 ^ 64 := by norm_num
  simp only [frame, List.append_assoc] at h
  obtain ⟨hlen, hbody⟩ :=
    leBytes_append_inj (by rw [hpow]; exact hs) (by rw [hpow]; exact ht) h
  obtain ⟨hpay, hpad⟩ := List.append_inj hbody hlen
  refine ⟨hpay, ?_⟩
  rw [hlen] at hpad
  exact List.append_cancel_left hpad

/-! ## Marked items -/

/-- Items written one after another, each after a mark that none of them
    contains, can be told apart. -/
theorem flatMap_mark_inj {α β : Type} {mark : β} {text : α → List β}
    (hinj : Function.Injective text) (hmark : ∀ a, mark ∉ text a) {xs ys : List α}
    (h : (xs.flatMap fun a => mark :: text a) = ys.flatMap fun a => mark :: text a) : xs = ys := by
  classical
  -- what comes before the next mark is the first text
  have hfirst (a : α) (zs : List α) :
      (text a ++ zs.flatMap fun a => mark :: text a).takeWhile (· ≠ mark) = text a := by
    rw [List.takeWhile_append_of_pos]
    · cases zs with
      | nil => simp
      | cons z zs => simp
    · intro b hb
      have hne : b ≠ mark := fun heq => hmark a (heq ▸ hb)
      simpa using hne
  induction xs generalizing ys with
  | nil =>
      cases ys with
      | nil => rfl
      | cons y ys => simp at h
  | cons x xs ih =>
      cases ys with
      | nil => simp at h
      | cons y ys =>
          simp only [List.flatMap_cons, List.cons_append, List.cons.injEq, true_and] at h
          have htext : text x = text y := by rw [← hfirst x xs, h, hfirst y ys]
          rw [htext, List.append_cancel_left_eq] at h
          rw [hinj htext, ih h]

end Wire
end NixStore
