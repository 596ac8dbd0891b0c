/-
  NixStore.Util.CanonPathOrder

  `CanonPath::operator<=>` and `CanonPath::isAllowed`
  (`libutil/canon-path.{hh,cc}`).

  The characters that are compared are plain `char`s, so their order depends on
  whether `char` is signed.  Where it is not, a slash comes before every other
  character and the descendants of a directory come right after it
  (`followed_iff`).  Where it is, the bytes from 0x80 on come before the slash,
  and the lower bound that `isAllowed` looks at can be a neighbour of the
  directory instead of a descendant (`isAllowed_iff`).
-/

import NixStore.Lib.LexOrder
import NixStore.Util.CanonPathText

namespace NixStore

namespace CanonPath

open LexOrder

-- ============================================================================
-- operator<=>
-- ============================================================================

/-- What is compared for a `char`: its value, but 0 for a slash. -/
def charKey (signedChar : Bool) (c : UInt8) : Int :=
  if c = 0x2f then 0
  else if signedChar = true ∧ 0x80 ≤ c then (c.toNat : Int) - 256
  else c.toNat

/-- The loop of `operator<=>`. -/
def compareText (signedChar : Bool) : Bytes → Bytes → Ordering
  | c_i :: i, c_j :: j =>
      match compare (charKey signedChar c_i) (charKey signedChar c_j) with
      | .eq => compareText signedChar i j
      | cmp => cmp
  | i, j => compare (!i.isEmpty) (!j.isEmpty)

/-- `CanonPath::operator<=>`. -/
def cmp (signedChar : Bool) (p x : CanonPath) : Ordering := compareText signedChar p.path x.path

/-- What is compared of a text. -/
def keys (signedChar : Bool) (s : Bytes) : List Int := s.map (charKey signedChar)

variable {signedChar : Bool}

theorem compareText_eq_lt {s t : Bytes} :
    compareText signedChar s t = .lt ↔ keys signedChar s < keys signedChar t := by
  induction s generalizing t with
  | nil =>
      cases t with
      | nil => exact iff_of_false nofun (lt_irrefl _)
      | cons b t => exact iff_of_true rfl (List.nil_lt_cons _ _)
  | cons a s ih =>
      cases t with
      | nil => exact iff_of_false nofun (List.not_lt_nil _)
      | cons b t =>
          rw [compareText, keys, keys, List.map_cons, List.map_cons, cons_lt_cons]
          rcases lt_trichotomy (charKey signedChar a) (charKey signedChar b) with h | h | h
          · rw [compare_lt_iff_lt.mpr h]
            exact iff_of_true rfl (Or.inl h)
          · rw [compare_eq_iff_eq.mpr h]
            simp only [h, lt_irrefl, false_or, true_and]
            exact ih
          · rw [compare_gt_iff_gt.mpr h]
            refine iff_of_false nofun ?_
            rintro (hlt | ⟨heq, -⟩)
            · exact lt_asymm h hlt
            · exact absurd heq h.ne'

theorem compareText_swap (s t : Bytes) :
    compareText signedChar t s = (compareText signedChar s t).swap := by
  induction s generalizing t with
  | nil => cases t <;> rfl
  | cons a s ih =>
      cases t with
      | nil => rfl
      | cons b t =>
          rw [compareText, compareText]
          rcases lt_trichotomy (charKey signedChar a) (charKey signedChar b) with h | h | h
          · rw [compare_lt_iff_lt.mpr h, compare_gt_iff_gt.mpr h]
            rfl
          · rw [compare_eq_iff_eq.mpr h, compare_eq_iff_eq.mpr h.symm]
            exact ih t
          · rw [compare_gt_iff_gt.mpr h, compare_lt_iff_lt.mpr h]
            rfl

/-- Without NUL bytes, no two characters are the same to the comparison. -/
theorem charKey_inj {a b : UInt8} (ha : a ≠ 0) (hb : b ≠ 0)
    (h : charKey signedChar a = charKey signedChar b) : a = b := by
  have hpos : ∀ {c : UInt8}, c ≠ 0 → c.toNat ≠ 0 ∧ c.toNat < 256 := fun {c} hc =>
    ⟨fun hzero => hc (UInt8.toNat_inj.mp hzero), c.toNat_lt⟩
  obtain ⟨ha, ha'⟩ := hpos ha
  obtain ⟨hb, hb'⟩ := hpos hb
  unfold charKey at h
  apply UInt8.toNat_inj.mp
  have hslash : ∀ c : UInt8, (c = 0x2f) = (c.toNat = 0x2f) := fun c =>
    propext UInt8.toNat_inj.symm
  have hhigh : ∀ c : UInt8, (0x80 ≤ c) = (0x80 ≤ c.toNat) := fun c =>
    propext UInt8.le_iff_toNat_le
  simp only [hslash, hhigh] at h
  split at h <;> split at h <;> (try split at h) <;> (try split at h) <;> omega

theorem keys_inj {s t : Bytes} (hs : 0 ∉ s) (ht : 0 ∉ t)
    (h : keys signedChar s = keys signedChar t) : s = t := by
  induction s generalizing t with
  | nil =>
      cases t with
      | nil => rfl
      | cons b t => cases h
  | cons a s ih =>
      cases t with
      | nil => cases h
      | cons b t =>
          rw [List.mem_cons, not_or] at hs ht
          obtain ⟨hhead, htail⟩ := List.cons.inj h
          rw [charKey_inj (Ne.symm hs.1) (Ne.symm ht.1) hhead, ih hs.2 ht.2 htail]

/-- A text in front of another one is in front of it as what is compared. -/
theorem prefix_of_keys {s t : Bytes} (hs : 0 ∉ s) (ht : 0 ∉ t)
    (h : keys signedChar s <+: keys signedChar t) : s <+: t := by
  obtain ⟨front, hfront, heq⟩ := List.prefix_map_iff.mp h
  rwa [keys_inj hs (fun hmem => ht (hfront.subset hmem)) heq]

-- ============================================================================
-- A strict total order
-- ============================================================================

/-- What a strict total order that agrees with `operator==` is, for the paths
    without NUL bytes. -/
structure StrictTotal (signedChar : Bool) : Prop where
  eq_iff : ∀ {p x : CanonPath}, Canonical p → Canonical x → (cmp signedChar p x = .eq ↔ p = x)
  swap : ∀ p x : CanonPath, cmp signedChar x p = (cmp signedChar p x).swap
  trans : ∀ {p x y : CanonPath}, cmp signedChar p x = .lt → cmp signedChar x y = .lt →
    cmp signedChar p y = .lt

theorem cmp_eq_lt {p x : CanonPath} :
    cmp signedChar p x = .lt ↔ keys signedChar p.path < keys signedChar x.path := compareText_eq_lt

theorem cmp_ne_lt {p x : CanonPath} (h : cmp signedChar p x ≠ .lt) :
    ¬ keys signedChar p.path < keys signedChar x.path := fun hlt => h (cmp_eq_lt.mpr hlt)

theorem cmp_self (p : CanonPath) : cmp signedChar p p = .eq := by
  have hswap := @compareText_swap signedChar p.path p.path
  unfold cmp
  cases h : compareText signedChar p.path p.path with
  | eq => rfl
  | lt | gt =>
      rw [h] at hswap
      cases hswap

theorem eq_of_cmp {p x : CanonPath} (hp : Canonical p) (hx : Canonical x)
    (h : cmp signedChar p x = .eq) : p = x := by
  have hnot : ¬ keys signedChar p.path < keys signedChar x.path := by
    rw [← cmp_eq_lt, h]
    nofun
  have hnot' : ¬ keys signedChar x.path < keys signedChar p.path := by
    rw [← cmp_eq_lt, show cmp signedChar x p = (cmp signedChar p x).swap from
      compareText_swap _ _, h]
    nofun
  have hkeys := le_antisymm (not_lt.mp hnot') (not_lt.mp hnot)
  obtain ⟨path⟩ := p
  exact congrArg CanonPath.mk (keys_inj hp.noNul hx.noNul hkeys)

theorem strictTotal (signedChar : Bool) : StrictTotal signedChar where
  eq_iff := fun hp hx => ⟨eq_of_cmp hp hx, fun h => h ▸ cmp_self _⟩
  swap := fun p x => compareText_swap p.path x.path
  trans := fun h h' => cmp_eq_lt.mpr (lt_trans (cmp_eq_lt.mp h) (cmp_eq_lt.mp h'))

-- ============================================================================
-- A directory and its descendants
-- ============================================================================

/-- The descendants of a directory come after it, and nothing else comes
    between. -/
structure Followed (signedChar : Bool) (d : CanonPath) : Prop where
  after : ∀ y, Canonical y → y.isWithin d → y ≠ d → cmp signedChar d y = .lt
  directly : ∀ x y, Canonical x → Canonical y → cmp signedChar d x = .lt →
    cmp signedChar x y = .lt → y.isWithin d → x.isWithin d

/-- The text of a descendant. -/
theorem isWithin_text {p d : CanonPath} (hroot : d.isRoot = false) (h : p.isWithin d = true)
    (hne : p ≠ d) : ∃ rest, p.path = d.path ++ 0x2f :: rest := by
  obtain ⟨rest, hpath, hnext⟩ := isWithin_iff.mp h
  rcases hnext with hlen | rfl | hslash
  · rw [isRoot, decide_eq_false_iff_not] at hroot
    exact absurd hlen hroot
  · rw [List.append_nil] at hpath
    obtain ⟨path⟩ := p
    obtain ⟨dpath⟩ := d
    exact absurd (congrArg CanonPath.mk hpath) hne
  · obtain ⟨more, rfl⟩ := List.head?_eq_some_iff.mp hslash
    exact ⟨more, hpath⟩

theorem isWithin_of_text {p d : CanonPath} {rest : Bytes} (h : p.path = d.path ++ 0x2f :: rest) :
    p.isWithin d = true := isWithin_iff.mpr ⟨_, h, Or.inr (Or.inr rfl)⟩

theorem isWithin_self (p : CanonPath) : p.isWithin p = true :=
  isWithin_iff.mpr ⟨[], (List.append_nil _).symm, Or.inr (Or.inl rfl)⟩

theorem isWithin_root {p d : CanonPath} (hp : Canonical p) (hd : Canonical d)
    (hroot : d.isRoot = true) : p.isWithin d = true := by
  obtain ⟨rest, hrest⟩ := List.head?_eq_some_iff.mp hp.slash
  obtain ⟨more, hmore⟩ := List.head?_eq_some_iff.mp hd.slash
  rw [isRoot, hmore, decide_eq_true_eq, List.length_cons] at hroot
  have hnil : more = [] := List.length_eq_zero_iff.mp (by omega)
  exact isWithin_iff.mpr ⟨rest, by rw [hrest, hmore, hnil]; rfl,
    Or.inl (by rw [hmore, hnil]; decide)⟩

theorem cmp_descendant {p d : CanonPath} (h : p.isWithin d = true) (hne : p ≠ d) :
    cmp signedChar d p = .lt := by
  obtain ⟨rest, hpath, -⟩ := isWithin_iff.mp h
  have hrest : rest ≠ [] := by
    rintro rfl
    rw [List.append_nil] at hpath
    obtain ⟨path⟩ := p
    obtain ⟨dpath⟩ := d
    exact hne (congrArg CanonPath.mk hpath)
  apply cmp_eq_lt.mpr
  rw [hpath, keys, keys, List.map_append]
  exact lt_append fun hnil => hrest (List.map_eq_nil_iff.mp hnil)

/-- A character that is not after the slash is the slash, or one that is
    negative as a `char`. -/
theorem charKey_le_slash {c : UInt8} (hc : c ≠ 0)
    (h : ¬ charKey signedChar 0x2f < charKey signedChar c) :
    c = 0x2f ∨ signedChar = true ∧ 0x80 ≤ c := by
  by_contra hnot
  rw [not_or] at hnot
  apply h
  have hpos : 0 < c.toNat := Nat.pos_of_ne_zero fun hzero => hc (UInt8.toNat_inj.mp hzero)
  rw [charKey, if_pos rfl, charKey, if_neg hnot.1, if_neg hnot.2]
  exact_mod_cast hpos

/-- What comes between a directory and a descendant of it continues the text of
    the directory with a slash or with a negative `char`. -/
theorem text_of_between {d x y : CanonPath} (hd : Canonical d) (hx : Canonical x)
    (hroot : d.isRoot = false) (hlow : cmp signedChar x d ≠ .lt) (hhigh : cmp signedChar y x ≠ .lt)
    (hne : x ≠ d) (hy : y.isWithin d = true) (hyd : y ≠ d) :
    ∃ c rest, x.path = d.path ++ c :: rest ∧ (c = 0x2f ∨ signedChar = true ∧ 0x80 ≤ c) := by
  obtain ⟨more, hmore⟩ := isWithin_text hroot hy hyd
  have hhigh := cmp_ne_lt hhigh
  rw [hmore, keys, List.map_append] at hhigh
  have hfront := prefix_of_keys hd.noNul hx.noNul (prefix_of_between (cmp_ne_lt hlow) hhigh)
  obtain ⟨tail, htail⟩ := hfront
  cases tail with
  | nil =>
      rw [List.append_nil] at htail
      obtain ⟨path⟩ := x
      obtain ⟨dpath⟩ := d
      exact absurd (congrArg CanonPath.mk htail.symm) hne
  | cons c rest =>
      refine ⟨c, rest, htail.symm, charKey_le_slash ?_ ?_⟩
      · rintro rfl
        exact hx.noNul (by rw [← htail]; exact List.mem_append_right _ List.mem_cons_self)
      · rw [← htail, keys, List.map_append, append_lt_append, List.map_cons, List.map_cons,
          cons_lt_cons, not_or] at hhigh
        exact hhigh.1

/-- A name with one byte more is a name. -/
theorem isName_append {c : Bytes} (hc : IsName c) : IsName (c ++ [0xff]) := by
  obtain ⟨⟨hne, -, -, hslash⟩, hnul⟩ := hc
  have hlast : ∀ {t : Bytes}, t.getLast? ≠ some 0xff → c ++ [0xff] ≠ t := by
    rintro t ht rfl
    exact ht List.getLast?_concat
  have hmem : ∀ {b : UInt8}, b ∉ c → b ≠ 0xff → b ∉ c ++ [0xff] := fun hb hne hmem =>
    (List.mem_append.mp hmem).elim hb fun hmem => hne (List.mem_singleton.mp hmem)
  exact ⟨⟨List.append_ne_nil_of_left_ne_nil hne _, hlast (by decide), hlast (by decide),
    hmem hslash (by decide)⟩, hmem hnul (by decide)⟩

/-- Where `char` is signed, "d\\xff" comes between d and d/a. -/
theorem neighbour_between {d : CanonPath} (hd : Canonical d) (hroot : d.isRoot = false) :
    ∃ x y, Canonical x ∧ Canonical y ∧ cmp true d x = .lt ∧ cmp true x y = .lt ∧
      y.isWithin d = true ∧ x.isWithin d = false := by
  obtain ⟨q, hq, rfl⟩ := canonical_iff.mp hd
  rcases List.eq_nil_or_concat q with rfl | ⟨front, c, rfl⟩
  · cases hroot
  rw [List.concat_eq_append] at hq hroot ⊢
  obtain ⟨hfront, hc⟩ := List.forall_mem_append.mp hq
  rw [List.forall_mem_singleton] at hc
  have hne : ∀ (front : NodePath) (d : Bytes), front ++ [d] ≠ [] := fun front d =>
    List.append_ne_nil_of_right_ne_nil _ (List.cons_ne_nil d [])
  have hxtext : (ofComponents (front ++ [c ++ [0xff]])).path
      = (ofComponents (front ++ [c])).path ++ [0xff] := by
    rw [ofComponents_of_ne_nil (hne _ _), ofComponents_of_ne_nil (hne _ _), List.flatMap_append,
      List.flatMap_append, List.flatMap_singleton, List.flatMap_singleton, List.append_assoc]
    rfl
  have hytext : (ofComponents (front ++ [c] ++ [ascii "a"])).path
      = (ofComponents (front ++ [c])).path ++ [0x2f, 0x61] := by
    rw [ofComponents_of_ne_nil (hne _ _), ofComponents_of_ne_nil (hne _ _), List.flatMap_append]
    rfl
  refine ⟨ofComponents (front ++ [c ++ [0xff]]), ofComponents (front ++ [c] ++ [ascii "a"]),
    canonical_of_names ?_, canonical_of_names ?_, cmp_eq_lt.mpr ?_, cmp_eq_lt.mpr ?_,
    isWithin_of_text hytext, ?_⟩
  · exact List.forall_mem_append.mpr ⟨hfront, List.forall_mem_singleton.mpr (isName_append hc)⟩
  · exact List.forall_mem_append.mpr ⟨hq, List.forall_mem_singleton.mpr (by decide)⟩
  · rw [hxtext, keys, keys, List.map_append]
    exact lt_append (List.cons_ne_nil _ _)
  · rw [hxtext, hytext, keys, keys, List.map_append, List.map_append, append_lt_append]
    exact List.Lex.rel (by decide)
  · rw [Bool.eq_false_iff]
    intro hwithin
    have hxd : ofComponents (front ++ [c ++ [0xff]]) ≠ ofComponents (front ++ [c]) := by
      intro heq
      rw [heq] at hxtext
      simp at hxtext
    obtain ⟨rest, hrest⟩ := isWithin_text hroot hwithin hxd
    rw [hxtext] at hrest
    have hbyte := (List.cons.inj (List.append_cancel_left hrest)).1
    exact absurd hbyte (by decide)

/-- "In the sorted order a directory is always followed directly by its
    children": when `char` is not signed, and for the root. -/
theorem followed_iff {d : CanonPath} (hd : Canonical d) :
    Followed signedChar d ↔ (signedChar = false ∨ d.isRoot = true) := by
  constructor
  · intro h
    by_contra hnot
    rw [not_or, Bool.not_eq_false, Bool.not_eq_true] at hnot
    obtain ⟨rfl, hroot⟩ := hnot
    obtain ⟨x, y, hx, hy, hlow, hhigh, hyd, hxd⟩ := neighbour_between hd hroot
    rw [h.directly x y hx hy hlow hhigh hyd] at hxd
    cases hxd
  · intro hcase
    refine ⟨fun y _ hy hne => cmp_descendant hy hne, ?_⟩
    intro x y hx hy hlow hhigh hwithin
    by_cases hroot : d.isRoot = true
    · exact isWithin_root hx hd hroot
    rw [Bool.not_eq_true] at hroot
    have hunsigned : signedChar = false := by
      rcases hcase with h | h
      · exact h
      · rw [hroot] at h
        cases h
    have hxd : x ≠ d := by
      rintro rfl
      rw [cmp_self] at hlow
      cases hlow
    have hyd : y ≠ d := by
      rintro rfl
      exact lt_asymm (cmp_eq_lt.mp hlow) (cmp_eq_lt.mp hhigh)
    have hswap : ∀ {p x : CanonPath}, cmp signedChar p x = .lt → cmp signedChar x p ≠ .lt :=
      fun h h' => lt_asymm (cmp_eq_lt.mp h) (cmp_eq_lt.mp h')
    obtain ⟨c, rest, htext, rfl | ⟨hsigned, -⟩⟩ :=
      text_of_between hd hx hroot (hswap hlow) (hswap hhigh) hxd hwithin hyd
    · exact isWithin_of_text htext
    · rw [hunsigned] at hsigned
      cases hsigned

-- ============================================================================
-- isAllowed
-- ============================================================================

/-- `std::set<CanonPath>`: what iterating over it reads. -/
structure PathSet (signedChar : Bool) where
  elems : List CanonPath
  sorted : elems.Pairwise fun a b => cmp signedChar a b = .lt

namespace PathSet

/-- `std::set::lower_bound`. -/
def lowerBound (allowed : PathSet signedChar) (p : CanonPath) : Option CanonPath :=
  allowed.elems.find? fun a => !(cmp signedChar a p == .lt)

/-- `std::set::count`. -/
def count (allowed : PathSet signedChar) (p : CanonPath) : Bool :=
  allowed.elems.any fun a => cmp signedChar a p == .eq

/-- The loop of `isAllowed` over the parents. -/
def parentAllowed (allowed : PathSet signedChar) : Nat → CanonPath → Bool
  | 0, _ => false
  | fuel + 1, path =>
      if path.isRoot then false
      else allowed.count ⟨path.upToLast⟩ || allowed.parentAllowed fuel ⟨path.upToLast⟩

/-- What `isAllowed` is to return. -/
def Allows (allowed : PathSet signedChar) (p : CanonPath) : Prop :=
  ∃ a ∈ allowed.elems, p.isWithin a = true ∨ a.isWithin p = true

end PathSet

/-- `CanonPath::isAllowed`.  The text gets shorter with every `pop`. -/
def isAllowed (p : CanonPath) (allowed : PathSet signedChar) : Bool :=
  (match allowed.lowerBound p with
    | some lb => lb.isWithin p
    | none => false) || allowed.parentAllowed p.path.length p

section Allowed

variable {allowed : PathSet signedChar} (hall : ∀ a ∈ allowed.elems, Canonical a)
include hall

theorem count_iff {p : CanonPath} (hp : Canonical p) :
    allowed.count p = true ↔ p ∈ allowed.elems := by
  rw [PathSet.count, List.any_eq_true]
  constructor
  · rintro ⟨a, ha, heq⟩
    rwa [← eq_of_cmp (hall a ha) hp (by simpa using heq)]
  · intro hmem
    exact ⟨p, hmem, by rw [cmp_self]; rfl⟩

/-- The loop looks at all proper ancestors. -/
theorem parentAllowed_iff {q : NodePath} (hq : ∀ c ∈ q, IsName c) {fuel : Nat}
    (hfuel : q.length ≤ fuel) : allowed.parentAllowed fuel (ofComponents q) = true ↔
      ∃ r, r <+: q ∧ r ≠ q ∧ ofComponents r ∈ allowed.elems := by
  induction fuel generalizing q with
  | zero =>
      have hnil : q = [] := List.length_eq_zero_iff.mp (by omega)
      subst hnil
      refine iff_of_false Bool.false_ne_true ?_
      rintro ⟨r, hr, hne, -⟩
      exact hne (List.prefix_nil.mp hr)
  | succ fuel ih =>
      rcases List.eq_nil_or_concat q with rfl | ⟨front, c, rfl⟩
      · refine iff_of_false Bool.false_ne_true ?_
        rintro ⟨r, hr, hne, -⟩
        exact hne (List.prefix_nil.mp hr)
      rw [List.concat_eq_append] at hq hfuel ⊢
      have hne : front ++ [c] ≠ [] := List.append_ne_nil_of_right_ne_nil _ (List.cons_ne_nil c [])
      have hfront := (List.forall_mem_append.mp hq).1
      rw [List.length_append, List.length_singleton] at hfuel
      rw [PathSet.parentAllowed, isRoot_eq_false hne (head?_ne_some_nil hq),
        if_neg Bool.false_ne_true, upToLast_ofComponents hq, List.dropLast_concat, Bool.or_eq_true,
        count_iff hall (canonical_of_names hfront), ih hfront (by omega)]
      constructor
      · rintro (hmem | ⟨r, hr, -, hmem⟩)
        · exact ⟨front, List.prefix_append _ _, fun heq => by simp at heq, hmem⟩
        · refine ⟨r, hr.trans (List.prefix_append _ _), ?_, hmem⟩
          rintro rfl
          have hlen := hr.length_le
          simp at hlen
      · rintro ⟨r, hr, hne, hmem⟩
        rcases List.prefix_concat_iff.mp hr with heq | hr
        · exact absurd heq hne
        · by_cases heq : r = front
          · exact Or.inl (heq ▸ hmem)
          · exact Or.inr ⟨r, hr, heq, hmem⟩

omit hall in
theorem length_le_text {q : NodePath} : q.length ≤ (ofComponents q).path.length := by
  have hflat : q.length ≤ (q.flatMap fun c => (0x2f : UInt8) :: c).length := by
    induction q with
    | nil => exact Nat.le_refl _
    | cons c q ih =>
        rw [List.flatMap_cons, List.length_append, List.length_cons, List.length_cons]
        omega
  by_cases hnil : q = []
  · rw [hnil]
    exact Nat.zero_le _
  · rwa [ofComponents_of_ne_nil hnil]

omit hall in
theorem lowerBound_spec {p lb : CanonPath} (h : allowed.lowerBound p = some lb) :
    lb ∈ allowed.elems ∧ cmp signedChar lb p ≠ .lt ∧
      ∀ y ∈ allowed.elems, cmp signedChar y p ≠ .lt → cmp signedChar y lb ≠ .lt := by
  obtain ⟨hmem, hbelow, hfirst⟩ := find?_first allowed.sorted h
  refine ⟨hmem, by simpa using hbelow, ?_⟩
  intro y hy hyp hlt
  rcases hfirst y hy (by simpa using hyp) with rfl | hlt'
  · rw [cmp_self] at hlt
    cases hlt
  · exact lt_asymm (cmp_eq_lt.mp hlt) (cmp_eq_lt.mp hlt')

omit hall in
theorem exists_lowerBound {p y : CanonPath} (hy : y ∈ allowed.elems)
    (hyp : cmp signedChar y p ≠ .lt) : ∃ lb, allowed.lowerBound p = some lb :=
  exists_find? hy (by simpa using hyp)

theorem isAllowed_iff_or {p : CanonPath} (hp : Canonical p) : p.isAllowed allowed = true ↔
    (∃ lb, allowed.lowerBound p = some lb ∧ lb.isWithin p = true) ∨
      ∃ a ∈ allowed.elems, p.isWithin a = true ∧ p ≠ a := by
  obtain ⟨q, hq, rfl⟩ := canonical_iff.mp hp
  rw [isAllowed, Bool.or_eq_true, parentAllowed_iff hall hq length_le_text]
  apply or_congr
  · cases allowed.lowerBound (ofComponents q) with
    | none => exact iff_of_false Bool.false_ne_true nofun
    | some lb =>
        constructor
        · intro h
          exact ⟨lb, rfl, h⟩
        · rintro ⟨lb', heq, h⟩
          rwa [Option.some.inj heq]
  · constructor
    · rintro ⟨r, hr, hne, hmem⟩
      have hnames : ∀ c ∈ r, IsName c := fun c hc => hq c (hr.subset hc)
      refine ⟨_, hmem, (isWithin_ofComponents hq hnames).mpr hr, fun heq => hne ?_⟩
      exact (ofComponents_inj (fun c hc => (hq c hc).1) (fun c hc => (hnames c hc).1) heq).symm
    · rintro ⟨a, hmem, hwithin, hne⟩
      obtain ⟨r, hr, rfl⟩ := canonical_iff.mp (hall a hmem)
      exact ⟨r, (isWithin_ofComponents hq hr).mp hwithin, fun heq => hne (by rw [heq]), hmem⟩

/-- A path that is below an allowed one, or is one, is found. -/
theorem isAllowed_of_isWithin {p a : CanonPath} (hp : Canonical p) (ha : a ∈ allowed.elems)
    (h : p.isWithin a = true) : p.isAllowed allowed = true := by
  apply (isAllowed_iff_or hall hp).mpr
  by_cases hpa : p = a
  · subst hpa
    have hself : cmp signedChar p p ≠ .lt := by rw [cmp_self]; nofun
    obtain ⟨lb, hlb⟩ := exists_lowerBound ha hself
    obtain ⟨hmem, hlow, hleast⟩ := lowerBound_spec hlb
    have heq : lb = p := by
      have hkeys := le_antisymm (not_lt.mp (cmp_ne_lt (hleast p ha hself)))
        (not_lt.mp (cmp_ne_lt hlow))
      obtain ⟨path⟩ := lb
      exact congrArg CanonPath.mk (keys_inj (hall _ hmem).noNul hp.noNul hkeys)
    exact Or.inl ⟨lb, hlb, by rw [heq]; exact isWithin_self p⟩
  · exact Or.inr ⟨a, ha, h, hpa⟩

theorem allows_of_isAllowed {p : CanonPath} (hp : Canonical p) (h : p.isAllowed allowed = true) :
    allowed.Allows p := by
  rcases (isAllowed_iff_or hall hp).mp h with ⟨lb, hlb, hwithin⟩ | ⟨a, ha, hwithin, -⟩
  · exact ⟨lb, (lowerBound_spec hlb).1, Or.inr hwithin⟩
  · exact ⟨a, ha, Or.inl hwithin⟩

/-- Below a directory that no allowed path contains, the lower bound decides. -/
theorem isAllowed_iff_lowerBound {p : CanonPath} (hp : Canonical p)
    (hnone : ¬ ∃ a ∈ allowed.elems, p.isWithin a = true) : p.isAllowed allowed = true ↔
      ∃ lb, allowed.lowerBound p = some lb ∧ lb.isWithin p = true := by
  rw [isAllowed_iff_or hall hp]
  exact or_iff_left fun ⟨a, ha, hwithin, _⟩ => hnone ⟨a, ha, hwithin⟩

/-- No allowed path continues the text of `p` with a byte from 0x80 on: then the
    lower bound is a descendant if there is one. -/
theorem lowerBound_isWithin {p d : CanonPath} (hp : Canonical p) (hroot : p.isRoot = false)
    (hnone : ¬ ∃ a ∈ allowed.elems, p.isWithin a = true) (hd : d ∈ allowed.elems)
    (hwithin : d.isWithin p = true)
    (hplain : signedChar = true → ∀ a ∈ allowed.elems, ∀ c rest, a.path = p.path ++ c :: rest →
      c < 0x80) : ∃ lb, allowed.lowerBound p = some lb ∧ lb.isWithin p = true := by
  have hself : ∀ {a : CanonPath}, a ∈ allowed.elems → a ≠ p := by
    rintro a ha rfl
    exact hnone ⟨a, ha, isWithin_self a⟩
  have hdp : cmp signedChar d p ≠ .lt := fun hlt =>
    lt_asymm (cmp_eq_lt.mp hlt) (cmp_eq_lt.mp (cmp_descendant hwithin (hself hd)))
  obtain ⟨lb, hlb⟩ := exists_lowerBound hd hdp
  obtain ⟨hmem, hlow, hleast⟩ := lowerBound_spec hlb
  obtain ⟨c, rest, htext, rfl | ⟨hsigned, hhigh⟩⟩ := text_of_between hp (hall lb hmem) hroot hlow
    (hleast d hd hdp) (hself hmem) hwithin (hself hd)
  · exact ⟨lb, hlb, isWithin_of_text htext⟩
  · exact absurd (hplain hsigned lb hmem c rest htext) (UInt8.not_lt.mpr hhigh)

omit hall in
/-- The lower bound is no descendant when an allowed path continues the text of
    `p` with a negative `char`. -/
theorem lowerBound_not_isWithin {p a : CanonPath} {c : UInt8} {rest : Bytes}
    (hroot : p.isRoot = false)
    (hsigned : signedChar = true) (hnone : ¬ ∃ a ∈ allowed.elems, p.isWithin a = true)
    (ha : a ∈ allowed.elems) (htext : a.path = p.path ++ c :: rest) (hhigh : 0x80 ≤ c) :
    ¬ ∃ lb, allowed.lowerBound p = some lb ∧ lb.isWithin p = true := by
  rintro ⟨lb, hlb, hwithin⟩
  obtain ⟨hmem, -, hleast⟩ := lowerBound_spec hlb
  have hne : lb ≠ p := by
    rintro rfl
    exact hnone ⟨lb, hmem, isWithin_self lb⟩
  obtain ⟨more, hmore⟩ := isWithin_text hroot hwithin hne
  have hap : cmp signedChar a p ≠ .lt := by
    intro hlt
    rw [cmp_eq_lt, htext, keys, keys, List.map_append] at hlt
    exact lt_asymm hlt (lt_append (List.cons_ne_nil _ _))
  apply hleast a ha hap
  rw [cmp_eq_lt, htext, hmore, keys, keys, List.map_append, List.map_append, append_lt_append]
  apply List.Lex.rel
  have hslash : c ≠ 0x2f := by
    rintro rfl
    exact absurd hhigh (by decide)
  have hbyte : c.toNat < 256 := c.toNat_lt
  rw [charKey, if_neg hslash, if_pos ⟨hsigned, hhigh⟩, charKey, if_pos rfl]
  omega

end Allowed

/-- `operator<=>` is a strict total order; a directory is followed directly by
    its descendants unless `char` is signed; and `isAllowed` returns what it is
    documented to return unless `char` is signed and, with no allowed path at or
    above `p` and some below it, another one continues the text of `p` with a
    byte from 0x80 on. -/
theorem isAllowed_iff_allows {allowed : PathSet signedChar} {p : CanonPath}
    (hall : ∀ a ∈ allowed.elems, Canonical a) (hp : Canonical p) :
    StrictTotal signedChar ∧
      (Followed signedChar p ↔ (signedChar = false ∨ p.isRoot = true)) ∧
      ((p.isAllowed allowed = true ↔ allowed.Allows p) ↔
        (signedChar = false ∨ p.isRoot = true ∨ (∃ a ∈ allowed.elems, p.isWithin a = true) ∨
          (∀ a ∈ allowed.elems, a.isWithin p = false) ∨
          ∀ a ∈ allowed.elems, ∀ c rest, a.path = p.path ++ c :: rest → c < 0x80)) := by
  refine ⟨strictTotal signedChar, followed_iff hp, ?_⟩
  -- an allowed path above `p` is found by the first loop
  by_cases habove : ∃ a ∈ allowed.elems, p.isWithin a = true
  · obtain ⟨a, ha, hwithin⟩ := habove
    exact iff_of_true (iff_of_true (isAllowed_of_isWithin hall hp ha hwithin)
      ⟨a, ha, Or.inl hwithin⟩) (Or.inr (Or.inr (Or.inl ⟨a, ha, hwithin⟩)))
  -- with none below `p` either, both sides are false
  by_cases hbelow : ∀ a ∈ allowed.elems, a.isWithin p = false
  · have hnot : ¬ allowed.Allows p := by
      rintro ⟨a, ha, hwithin | hwithin⟩
      · exact habove ⟨a, ha, hwithin⟩
      · rw [hbelow a ha] at hwithin
        cases hwithin
    exact iff_of_true (iff_of_false (fun h => hnot (allows_of_isAllowed hall hp h)) hnot)
      (Or.inr (Or.inr (Or.inr (Or.inl hbelow))))
  obtain ⟨d, hd, hwithin⟩ : ∃ d ∈ allowed.elems, d.isWithin p = true := by
    by_contra hnone
    exact hbelow fun a ha => Bool.eq_false_iff.mpr fun h => hnone ⟨a, ha, h⟩
  have hallows : allowed.Allows p := ⟨d, hd, Or.inr hwithin⟩
  -- left is the second test, which looks at the lower bound only
  have hsimp : (p.isAllowed allowed = true ↔ allowed.Allows p) ↔
      ∃ lb, allowed.lowerBound p = some lb ∧ lb.isWithin p = true := by
    rw [iff_true_right hallows, isAllowed_iff_lowerBound hall hp habove]
  rw [hsimp]
  -- below the root everything is
  by_cases hroot : p.isRoot = true
  · have hdp : cmp signedChar d p ≠ .lt := by
      intro hlt
      by_cases heq : d = p
      · rw [heq, cmp_self] at hlt
        cases hlt
      · exact lt_asymm (cmp_eq_lt.mp hlt) (cmp_eq_lt.mp (cmp_descendant hwithin heq))
    obtain ⟨lb, hlb⟩ := exists_lowerBound hd hdp
    exact iff_of_true ⟨lb, hlb, isWithin_root (hall _ (lowerBound_spec hlb).1) hp hroot⟩
      (Or.inr (Or.inl hroot))
  have hroot : p.isRoot = false := by simpa using hroot
  constructor
  · intro hlb
    by_cases hsigned : signedChar = false
    · exact Or.inl hsigned
    refine Or.inr (Or.inr (Or.inr (Or.inr ?_)))
    intro a ha c rest htext
    by_contra hhigh
    exact lowerBound_not_isWithin hroot (by simpa using hsigned) habove ha htext
      (UInt8.not_lt.mp hhigh) hlb
  · intro hcase
    apply lowerBound_isWithin hall hp hroot habove hd hwithin
    intro hsigned
    rcases hcase with h | h | h | h | h
    · rw [h] at hsigned
      cases hsigned
    · rw [hroot] at h
      cases h
    · exact absurd h habove
    · exact absurd h hbelow
    · exact h

namespace Sample

/-- "/foo". -/
def foo : CanonPath := ofComponents [ascii "foo"]

/-- "/foo\xff" and "/foo/bar", in the order of a signed `char`. -/
def neighbours : PathSet true where
  elems := [ofComponents [ascii "foo" ++ [0xff]], ofComponents [ascii "foo", ascii "bar"]]
  sorted := by
    refine List.pairwise_pair.mpr (cmp_eq_lt.mpr ?_)
    decide

theorem canonical_foo : Canonical foo := canonical_of_names (by decide)

theorem canonical_neighbours : ∀ a ∈ neighbours.elems, Canonical a := by
  intro a ha
  rcases List.mem_pair.mp ha with rfl | rfl
  · exact canonical_of_names (by decide)
  · exact canonical_of_names (by decide)

theorem neighbours_allow_foo : neighbours.Allows foo :=
  ⟨_, List.mem_cons_of_mem _ List.mem_cons_self, Or.inr (by decide)⟩

/-- The lower bound of "/foo" is "/foo\xff", which is not below it. -/
theorem foo_not_allowed : foo.isAllowed neighbours = false := by decide

theorem isAllowed_foo : ¬ ∀ (allowed : PathSet true) (p : CanonPath),
    (∀ a ∈ allowed.elems, Canonical a) → Canonical p →
      (p.isAllowed allowed = true ↔ allowed.Allows p) := by
  intro h
  have hfoo := (h neighbours foo canonical_neighbours canonical_foo).mpr neighbours_allow_foo
  rw [foo_not_allowed] at hfoo
  cases hfoo

end Sample

theorem isAllowed_iff_allows_foo :
    (Sample.foo.isAllowed Sample.neighbours = true ↔ Sample.neighbours.Allows Sample.foo) ↔
      (true = false ∨ Sample.foo.isRoot = true ∨
        (∃ a ∈ Sample.neighbours.elems, Sample.foo.isWithin a = true) ∨
        (∀ a ∈ Sample.neighbours.elems, a.isWithin Sample.foo = false) ∨
        ∀ a ∈ Sample.neighbours.elems, ∀ c rest, a.path = Sample.foo.path ++ c :: rest →
          c < 0x80) :=
  (isAllowed_iff_allows Sample.canonical_neighbours Sample.canonical_foo).2.2

end CanonPath

end NixStore
