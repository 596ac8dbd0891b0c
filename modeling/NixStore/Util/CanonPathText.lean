/-
  NixStore.Util.CanonPathText

  The constructors and operations of `CanonPath` (`libutil/canon-path.{hh,cc}`)
  on the text it keeps, and `canonPathInner` (`libutil/file-path-impl.hh`), the
  loop that makes a text canonical.

  The invariant is the list of points in the comment on the class
  (`Canonical`); it says that the text is one of a list of names
  (`canonical_iff`).  Every constructor and every operation but `push` is the
  corresponding operation on that list.  `push` takes an empty name.
-/

import NixStore.Util.CanonPath
import Mathlib.Data.List.TakeWhile

namespace NixStore

namespace CanonPath

-- ============================================================================
-- canonPathInner
-- ============================================================================

/-- `std::string::rfind('/')`, with `none` for `npos`. -/
def rfindSlash (s : Bytes) : Option Nat :=
  if 0x2f ∈ s then some (s.length - 1 - (s.reverse.takeWhile (· != 0x2f)).length) else none

/-- `result.erase(rfindPathSep(result))`. -/
def eraseLast (result : Bytes) : Bytes :=
  match rfindSlash result with
  | some i => result.take i
  | none => result

/-- "Skip slashes." -/
def skipSlashes (remaining : Bytes) : Bytes := remaining.dropWhile (· == 0x2f)

/-- `nextComp`: up to the next slash, or all of it. -/
def nextComp (remaining : Bytes) : Bytes := remaining.takeWhile (· != 0x2f)

/-- After the slashes there is a component. -/
theorem nextComp_skipSlashes_ne_nil {remaining : Bytes} (h : skipSlashes remaining ≠ []) :
    nextComp (skipSlashes remaining) ≠ [] := by
  unfold nextComp skipSlashes at *
  obtain ⟨b, more, hcons⟩ := List.exists_cons_of_ne_nil h
  have hb := List.head?_dropWhile_not (· == (0x2f : UInt8)) remaining
  rw [hcons] at hb ⊢
  rw [List.takeWhile_cons, if_pos (by simpa using hb)]
  exact List.cons_ne_nil _ _

/-- The loop of `canonPathInner` without a hook. -/
def canonLoop (result remaining : Bytes) : Bytes :=
  if skipSlashes remaining = [] then result
  else if nextComp (skipSlashes remaining) = ascii "." then
    canonLoop result ((skipSlashes remaining).drop 1)
  else if nextComp (skipSlashes remaining) = ascii ".." then
    canonLoop (eraseLast result) ((skipSlashes remaining).drop 2)
  else
    canonLoop (result ++ 0x2f :: nextComp (skipSlashes remaining))
      ((skipSlashes remaining).drop (nextComp (skipSlashes remaining)).length)
termination_by remaining.length
decreasing_by
  all_goals
    have hrest : 0 < (skipSlashes remaining).length := List.length_pos_iff.mpr ‹_›
    have hle : (skipSlashes remaining).length ≤ remaining.length :=
      (List.dropWhile_sublist _).length_le
    rw [List.length_drop]
  · omega
  · omega
  · have hcomp := List.length_pos_iff.mpr (nextComp_skipSlashes_ne_nil ‹_›)
    omega

/-- `absPathPure`. -/
def absPathPure (path : Bytes) : Except Error Bytes := do
  throwIf (path = []) (.assertion "remaining != \"\"")
  let result := canonLoop [] path
  pure (if result = [] then ascii "/" else result)

/-- What the rounds make of the components of a text. -/
def walk (comps : List Bytes) (s : Bytes) : List Bytes := (s.splitOn 0x2f).foldl canonStep comps

@[simp] theorem walk_nil (comps : List Bytes) : walk comps [] = comps := rfl

theorem walk_slash (comps : List Bytes) (s : Bytes) : walk comps (0x2f :: s) = walk comps s := by
  rw [walk, List.splitOn_cons_eq_if_modifyHead, if_pos (by decide), List.foldl_cons]
  rfl

theorem walk_skipSlashes (comps : List Bytes) (s : Bytes) :
    walk comps (skipSlashes s) = walk comps s := by
  unfold skipSlashes
  induction s with
  | nil => rfl
  | cons b s ih =>
      rw [List.dropWhile_cons]
      by_cases hb : (b == 0x2f) = true
      · rw [if_pos hb, ih, eq_of_beq hb, walk_slash]
      · rw [if_neg hb]

theorem slash_notMem_nextComp (s : Bytes) : (0x2f : UInt8) ∉ nextComp s := by
  intro hmem
  have hne := List.mem_takeWhile_imp hmem
  simp at hne

/-- A text is its first component and what comes after it. -/
theorem walk_nextComp (comps : List Bytes) (s : Bytes) :
    walk comps s = walk (canonStep comps (nextComp s)) (s.drop (nextComp s).length) := by
  have hfirst := slash_notMem_nextComp s
  have hwhole : nextComp s ++ s.dropWhile (· != 0x2f) = s := List.takeWhile_append_dropWhile
  have hdrop := @List.drop_left _ (nextComp s) (s.dropWhile (· != 0x2f))
  rw [hwhole] at hdrop
  rw [hdrop]
  cases hrest : s.dropWhile (· != 0x2f) with
  | nil =>
      rw [hrest, List.append_nil] at hwhole
      rw [walk_nil, hwhole]
      rw [hwhole] at hfirst
      rw [walk, List.splitOn_eq_singleton hfirst]
      rfl
  | cons b rest =>
      have hb : b = 0x2f := by
        have hhead := List.head?_dropWhile_not (· != (0x2f : UInt8)) s
        rw [hrest] at hhead
        simpa using hhead
      subst hb
      rw [hrest] at hwhole
      conv_lhs => rw [walk, ← hwhole, List.splitOn_append_cons_self_of_not_mem hfirst _]
      rw [List.foldl_cons, walk_slash]
      rfl

/-- A round of the loop, in components. -/
theorem walk_round (comps : List Bytes) (remaining : Bytes) :
    walk comps remaining = walk (canonStep comps (nextComp (skipSlashes remaining)))
      ((skipSlashes remaining).drop (nextComp (skipSlashes remaining)).length) := by
  rw [← walk_nextComp, walk_skipSlashes]

-- ============================================================================
-- The last component of a text
-- ============================================================================

/-- The last slash stands before the last component. -/
theorem rfindSlash_append (front : Bytes) {c : Bytes} (hc : 0x2f ∉ c) :
    rfindSlash (front ++ 0x2f :: c) = some front.length := by
  have hrev : (front ++ 0x2f :: c).reverse = c.reverse ++ 0x2f :: front.reverse := by
    rw [List.reverse_append, List.reverse_cons, List.append_assoc, List.singleton_append]
  have hlast : (c.reverse ++ 0x2f :: front.reverse).takeWhile (· != 0x2f) = c.reverse := by
    rw [List.takeWhile_append_of_pos, List.takeWhile_cons, if_neg (by decide), List.append_nil]
    intro b hb
    rw [bne_iff_ne]
    rintro rfl
    exact hc (List.mem_reverse.mp hb)
  rw [rfindSlash, if_pos (List.mem_append_right _ List.mem_cons_self), hrev, hlast,
    List.length_append, List.length_cons, List.length_reverse]
  congr 1
  omega

theorem eraseLast_append (front : Bytes) {c : Bytes} (hc : 0x2f ∉ c) :
    eraseLast (front ++ 0x2f :: c) = front := by
  rw [eraseLast, rfindSlash_append front hc]
  exact List.take_left

/-- Deleting the last component of a result. -/
theorem eraseLast_flatMap {comps : List Bytes} (h : ∀ c ∈ comps, 0x2f ∉ c) :
    eraseLast (comps.flatMap fun c => 0x2f :: c) = comps.dropLast.flatMap fun c => 0x2f :: c := by
  rcases List.eq_nil_or_concat comps with rfl | ⟨front, c, rfl⟩
  · rfl
  · rw [List.concat_eq_append] at h ⊢
    rw [List.flatMap_append, List.flatMap_singleton, List.dropLast_concat]
    exact eraseLast_append _ (h c (List.mem_append_right _ List.mem_cons_self))

/-- The loop on texts and the fold over components. -/
theorem canonLoop_eq {comps : List Bytes} (h : ∀ c ∈ comps, 0x2f ∉ c) {result : Bytes}
    (hresult : result = comps.flatMap fun c => 0x2f :: c) (remaining : Bytes) :
    canonLoop result remaining = (walk comps remaining).flatMap fun c => 0x2f :: c := by
  have hround := walk_round comps remaining
  fun_induction canonLoop result remaining generalizing comps with
  | case1 result remaining hrest =>
      rw [hresult, ← walk_skipSlashes, hrest, walk_nil]
  | case2 result remaining hrest hdot ih =>
      rw [hdot] at hround
      rw [ih h hresult (walk_round _ _), hround]
      rfl
  | case3 result remaining hrest hdot hdotdot ih =>
      rw [hdotdot] at hround
      rw [ih (fun c hc => h c (List.dropLast_subset _ hc)) (by rw [hresult, eraseLast_flatMap h])
        (walk_round _ _), hround]
      rfl
  | case4 result remaining hrest hdot hdotdot ih =>
      have hcopy : canonStep comps (nextComp (skipSlashes remaining))
          = comps ++ [nextComp (skipSlashes remaining)] := by
        rw [canonStep, if_neg, if_neg hdotdot]
        rintro (hnil | hone)
        · exact nextComp_skipSlashes_ne_nil hrest hnil
        · exact hdot hone
      have hslash : ∀ c ∈ comps ++ [nextComp (skipSlashes remaining)], 0x2f ∉ c := by
        intro c hc
        rcases List.mem_append.mp hc with hc | hc
        · exact h c hc
        · rw [List.mem_singleton.mp hc]
          exact slash_notMem_nextComp _
      rw [ih hslash (by rw [hresult, List.flatMap_append, List.flatMap_singleton])
        (walk_round _ _), hround, hcopy]

theorem absPathPure_eq {path : Bytes} (h : path ≠ []) :
    absPathPure path = .ok (renderPath (walk [] path)) := by
  have hloop := @canonLoop_eq [] nofun [] rfl path
  rw [absPathPure, throwIf, if_neg h, ok_bind, hloop, renderPath]
  cases walk [] path <;> rfl

-- ============================================================================
-- Constructors
-- ============================================================================

/-- `CanonPath::CanonPath(std::string_view)`. -/
def ofRaw (raw : Bytes) : Except Error CanonPath := do
  let path ← absPathPure (ascii "/" ++ raw)
  ensureNoNullBytes raw
  pure ⟨path⟩

/-- `CanonPath::CanonPath(const char *)`: the text ends at its first NUL. -/
def ofCString (raw : Bytes) : Except Error CanonPath := do
  let path ← absPathPure (ascii "/" ++ raw.takeWhile (· != 0))
  pure ⟨path⟩

/-- `CanonPath::CanonPath(std::string_view, const CanonPath &)`. -/
def ofRelative (raw : Bytes) (root : CanonPath) : Except Error CanonPath := do
  let path ← absPathPure (if raw.head? = some 0x2f then raw else root.abs ++ ascii "/" ++ raw)
  ensureNoNullBytes raw
  pure ⟨path⟩

/-- `CanonPath::CanonPath(const std::vector<std::string> &)`. -/
def ofElems (elems : List Bytes) : Except Error CanonPath := elems.foldlM push root

/-- `CanonPath::Iterator`: what is left of the text from a component on.
    Iterators into one text are the same when as much is left. -/
structure Iterator where
  remaining : Bytes
deriving DecidableEq

namespace Iterator

/-- `Iterator::operator*`. -/
def deref (it : Iterator) : Bytes := nextComp it.remaining

/-- `Iterator::operator++`. -/
def next (it : Iterator) : Iterator := ⟨it.remaining.drop ((nextComp it.remaining).length + 1)⟩

/-- The components from an iterator to `end()`. -/
def components (it : Iterator) : List Bytes :=
  if it.remaining = [] then [] else it.deref :: it.next.components
termination_by it.remaining.length
decreasing_by
  have hpos : 0 < it.remaining.length := List.length_pos_iff.mpr ‹_›
  rw [next, List.length_drop]
  omega

end Iterator

/-- `CanonPath::begin`. -/
def begin (p : CanonPath) : Iterator := ⟨p.rel⟩

/-- `CanonPath::fromFilename`. -/
def fromFilename (segment : Bytes) : Except Error CanonPath := do
  let res ← ofRaw segment
  throwIf (segment ≠ res.rel ∨ res.begin.components.length ≠ 1)
    (.error s!"invalid filename '{showBytes segment}'")
  pure res

-- ============================================================================
-- Operations
-- ============================================================================

/-- What `pop` and `parent` leave of the text. -/
def upToLast (p : CanonPath) : Bytes :=
  match rfindSlash p.path with
  | some i => p.path.take (max 1 i)
  | none => p.path

/-- `CanonPath::parent`. -/
def parent (p : CanonPath) : Option CanonPath := if p.isRoot then none else some ⟨p.upToLast⟩

/-- `CanonPath::pop`. -/
def pop (p : CanonPath) : Except Error CanonPath := do
  throwIf p.isRoot (.assertion "!isRoot()")
  pure ⟨p.upToLast⟩

/-- `CanonPath::isWithin`. -/
def isWithin (p parent : CanonPath) : Bool :=
  !(decide (p.path.length < parent.path.length) ||
    decide (p.path.take parent.path.length ≠ parent.path) ||
    (decide (1 < parent.path.length) && decide (parent.path.length < p.path.length) &&
      decide (p.path[parent.path.length]? ≠ some 0x2f)))

/-- `CanonPath::removePrefix`. -/
def removePrefix (p pre : CanonPath) : Except Error CanonPath := do
  throwIf (p.isWithin pre = false) (.assertion "isWithin(prefix)")
  pure (if pre.isRoot then p
    else if p.path.length = pre.path.length then root
    else ⟨p.path.drop pre.path.length⟩)

-- ============================================================================
-- The invariant
-- ============================================================================

/-- What the comment on the class says of the text. -/
structure Canonical (p : CanonPath) : Prop where
  /-- It always starts with a slash. -/
  slash : p.path.head? = some 0x2f
  /-- It never ends with a slash, except if the path is "/". -/
  last : p.path.getLast? = some 0x2f → p.path = ascii "/"
  /-- A slash is never followed by a slash. -/
  noEmpty : ¬ [0x2f, 0x2f] <:+: p.path
  /-- There are no components equal to "." or "..". -/
  noDots : ascii "." ∉ p.path.splitOn 0x2f ∧ ascii ".." ∉ p.path.splitOn 0x2f
  /-- It does not contain NUL bytes. -/
  noNul : 0 ∉ p.path

/-- A component of a canonical path. -/
def IsName (c : Bytes) : Prop := NormalComponent c ∧ 0 ∉ c

instance (c : Bytes) : Decidable (IsName c) := by
  unfold IsName
  infer_instance

/-- The components of the text made from a list. -/
theorem splitOn_ofComponents {l : List Bytes} (hne : l ≠ []) (h : ∀ c ∈ l, 0x2f ∉ c) :
    (ofComponents l).path.splitOn 0x2f = [] :: l := by
  rw [ofComponents_of_ne_nil hne, flatMap_slash]
  apply List.splitOn_intercalate _ _ (List.cons_ne_nil _ _)
  intro c hc
  rcases List.mem_cons.mp hc with rfl | hc
  · exact List.not_mem_nil
  · exact h c hc

theorem canonical_root : Canonical root := by
  constructor <;> decide

/-- A list of components, the first of them not empty, makes a canonical text
    only if all of them are names. -/
theorem canonical_ofComponents {l : List Bytes} (hslash : ∀ c ∈ l, 0x2f ∉ c)
    (hfirst : l.head? ≠ some []) : Canonical (ofComponents l) ↔ ∀ c ∈ l, IsName c := by
  by_cases hnil : l = []
  · subst hnil
    exact ⟨fun _ => nofun, fun _ => canonical_root⟩
  have hsplit := splitOn_ofComponents hnil hslash
  have htext := ofComponents_of_ne_nil hnil
  have hbytes : ∀ {b : UInt8}, b ≠ 0x2f →
      (b ∈ (ofComponents l).path ↔ ∃ c ∈ l, b ∈ c) := by
    intro b hb
    rw [htext, List.mem_flatMap]
    simp only [List.mem_cons, hb, false_or]
  constructor
  · intro h c hc
    refine ⟨⟨?_, ?_, ?_, hslash c hc⟩, fun hnul => h.noNul ((hbytes (by decide)).mpr ⟨c, hc, hnul⟩)⟩
    · -- an empty component stands between two slashes or at the end
      rintro rfl
      obtain ⟨front, more, rfl⟩ := List.append_of_mem hc
      rw [List.flatMap_append, List.flatMap_cons] at htext
      cases more with
      | nil =>
          rw [List.flatMap_nil, List.append_nil] at htext
          have hroot := h.last (by rw [htext, List.getLast?_concat])
          cases front with
          | nil => exact hfirst rfl
          | cons c front =>
              rw [hroot] at htext
              have hlen := congrArg List.length htext
              simp [ascii] at hlen
      | cons d more =>
          apply h.noEmpty
          rw [htext, List.flatMap_cons]
          exact ⟨_, _, by simp only [List.append_assoc]; rfl⟩
    · rintro rfl
      exact h.noDots.1 (by rw [hsplit]; exact List.mem_cons_of_mem _ hc)
    · rintro rfl
      exact h.noDots.2 (by rw [hsplit]; exact List.mem_cons_of_mem _ hc)
  · intro h
    -- two parts of the text joined by a slash are split there
    have hjoin : ∀ {front more : Bytes}, (ofComponents l).path = front ++ 0x2f :: more →
        ∀ c ∈ more.splitOn 0x2f, c ≠ [] := by
      intro front more hcut c hc
      rw [hcut, List.splitOn_append_cons_self] at hsplit
      obtain ⟨d, rest, hfront⟩ := List.exists_cons_of_ne_nil (List.splitOn_ne_nil 0x2f front)
      rw [hfront, List.cons_append, List.cons.injEq] at hsplit
      exact (h c (by rw [← hsplit.2]; exact List.mem_append_right _ hc)).1.1
    constructor
    · obtain ⟨c, l, rfl⟩ := List.exists_cons_of_ne_nil hnil
      rw [htext]
      rfl
    · intro hlast
      obtain ⟨front, hfront⟩ := List.getLast?_eq_some_iff.mp hlast
      exact absurd rfl (hjoin hfront [] (List.mem_singleton.mpr rfl))
    · rintro ⟨front, more, hinfix⟩
      have hcut : (ofComponents l).path = front ++ 0x2f :: 0x2f :: more := by
        rw [← hinfix, List.append_assoc]
        rfl
      refine absurd rfl (hjoin hcut [] ?_)
      rw [List.splitOn_cons_eq_if_modifyHead, if_pos (by decide)]
      exact List.mem_cons_self
    · rw [hsplit]
      constructor
      · intro hdot
        rcases List.mem_cons.mp hdot with hdot | hdot
        · cases hdot
        · exact (h _ hdot).1.2.1 rfl
      · intro hdot
        rcases List.mem_cons.mp hdot with hdot | hdot
        · cases hdot
        · exact (h _ hdot).1.2.2.1 rfl
    · intro hnul
      obtain ⟨c, hc, hmem⟩ := (hbytes (by decide)).mp hnul
      exact (h c hc).2 hmem

/-- The canonical texts are those of lists of names. -/
theorem canonical_iff {p : CanonPath} :
    Canonical p ↔ ∃ q : NodePath, (∀ c ∈ q, IsName c) ∧ p = ofComponents q := by
  constructor
  · intro h
    obtain ⟨rest, hrest⟩ : ∃ rest, p.path = 0x2f :: rest := by
      cases hpath : p.path with
      | nil =>
          have hslash := h.slash
          rw [hpath] at hslash
          cases hslash
      | cons b rest =>
          have hslash := h.slash
          rw [hpath] at hslash
          exact ⟨rest, by rw [Option.some.inj hslash]⟩
    by_cases hroot : rest = []
    · rw [hroot] at hrest
      obtain ⟨path⟩ := p
      exact ⟨[], nofun, congrArg CanonPath.mk hrest⟩
    · have hslash : ∀ c ∈ rest.splitOn 0x2f, 0x2f ∉ c := fun c hc => (mem_splitOn hc).1
      have hself : p = ofComponents (rest.splitOn 0x2f) := by
        obtain ⟨path⟩ := p
        apply congrArg CanonPath.mk
        rw [renderPath, if_neg (List.splitOn_ne_nil _ _), flatMap_slash,
          show path = 0x2f :: rest from hrest]
        obtain ⟨c, more, hsplit⟩ := List.exists_cons_of_ne_nil (List.splitOn_ne_nil 0x2f rest)
        have hwhole : List.intercalate [0x2f] (rest.splitOn 0x2f) = rest :=
          List.intercalate_splitOn 0x2f
        rw [hsplit] at hwhole ⊢
        rw [List.intercalate_cons_cons, hwhole]
        rfl
      refine ⟨_, (canonical_ofComponents hslash ?_).mp (hself ▸ h), hself⟩
      -- a text that starts with an empty component starts with two slashes
      intro hfirst
      obtain ⟨b, more, rfl⟩ := List.exists_cons_of_ne_nil hroot
      by_cases hb : b = 0x2f
      · exact h.noEmpty ⟨[], more, by rw [hrest, hb]; rfl⟩
      · rw [List.splitOn_cons_eq_if_modifyHead, if_neg (by simpa using hb),
          List.head?_modifyHead] at hfirst
        obtain ⟨c, -, hc⟩ := Option.map_eq_some_iff.mp hfirst
        cases hc
  · rintro ⟨q, hq, rfl⟩
    apply (canonical_ofComponents (fun c hc => (hq c hc).1.2.2.2) ?_).mpr hq
    intro hfirst
    exact (hq [] (List.mem_of_head? hfirst)).1.1 rfl

theorem canonical_of_names {q : NodePath} (hq : ∀ c ∈ q, IsName c) : Canonical (ofComponents q) :=
  canonical_iff.mpr ⟨q, hq, rfl⟩

-- ============================================================================
-- What the constructors return
-- ============================================================================

theorem canonStep_names {comps : List Bytes} {c : Bytes} (hcomps : ∀ d ∈ comps, IsName d)
    (hslash : 0x2f ∉ c) (hnul : 0 ∉ c) : ∀ d ∈ canonStep comps c, IsName d := by
  unfold canonStep
  split
  · exact hcomps
  · next hskip =>
      split
      · exact fun d hd => hcomps d (List.dropLast_subset _ hd)
      · next hdotdot =>
          rw [not_or] at hskip
          intro d hd
          rcases List.mem_append.mp hd with hd | hd
          · exact hcomps d hd
          · rw [List.mem_singleton.mp hd]
            exact ⟨⟨hskip.1, hskip.2, hdotdot, hslash⟩, hnul⟩

theorem walk_names {comps : List Bytes} (hcomps : ∀ c ∈ comps, IsName c) {s : Bytes}
    (hnul : 0 ∉ s) : ∀ c ∈ walk comps s, IsName c := by
  have hparts : ∀ c ∈ s.splitOn 0x2f, 0x2f ∉ c ∧ 0 ∉ c := fun c hc =>
    ⟨(mem_splitOn hc).1, fun hmem => hnul ((mem_splitOn hc).2 _ hmem)⟩
  unfold walk
  generalize s.splitOn 0x2f = parts at hparts
  induction parts generalizing comps with
  | nil => exact hcomps
  | cons c parts ih =>
      obtain ⟨hslash, hc⟩ := hparts c List.mem_cons_self
      exact ih (canonStep_names hcomps hslash hc) fun d hd => hparts d (List.mem_cons_of_mem _ hd)

/-- A text without NUL bytes is made canonical. -/
theorem canonical_absPathPure {path text : Bytes} (hnul : 0 ∉ path)
    (h : absPathPure path = .ok text) : Canonical ⟨text⟩ := by
  by_cases hne : path = []
  · rw [absPathPure, throwIf, if_pos hne] at h
    cases h
  · rw [absPathPure_eq hne] at h
    cases h
    exact canonical_of_names (walk_names (fun _ hc => absurd hc List.not_mem_nil) hnul)

theorem ensureNoNullBytes_eq_ok {s : Bytes} {u : Unit} :
    ensureNoNullBytes s = .ok u ↔ 0 ∉ s := throwIf_eq_ok

theorem canonical_ofRaw {raw : Bytes} {p : CanonPath} (h : ofRaw raw = .ok p) : Canonical p := by
  simp only [ofRaw, bind_eq_ok, pure_eq_ok, ensureNoNullBytes_eq_ok] at h
  obtain ⟨text, htext, -, hnul, heq⟩ := h
  cases heq
  apply canonical_absPathPure _ htext
  intro hmem
  rcases List.mem_append.mp hmem with hmem | hmem
  · exact absurd hmem (by decide)
  · exact hnul hmem

theorem canonical_ofCString {raw : Bytes} {p : CanonPath} (h : ofCString raw = .ok p) :
    Canonical p := by
  simp only [ofCString, bind_eq_ok, pure_eq_ok] at h
  obtain ⟨text, htext, heq⟩ := h
  cases heq
  apply canonical_absPathPure _ htext
  intro hmem
  rcases List.mem_append.mp hmem with hmem | hmem
  · exact absurd hmem (by decide)
  · have hne := List.mem_takeWhile_imp hmem
    simp at hne

theorem canonical_ofRelative {raw : Bytes} {root p : CanonPath} (hroot : Canonical root)
    (h : ofRelative raw root = .ok p) : Canonical p := by
  simp only [ofRelative, bind_eq_ok, pure_eq_ok, ensureNoNullBytes_eq_ok] at h
  obtain ⟨text, htext, -, hnul, heq⟩ := h
  cases heq
  apply canonical_absPathPure _ htext
  split
  · exact hnul
  · intro hmem
    rcases List.mem_append.mp hmem with hmem | hmem
    · rcases List.mem_append.mp hmem with hmem | hmem
      · exact hroot.noNul hmem
      · exact absurd hmem (by decide)
    · exact hnul hmem

theorem canonical_fromFilename {segment : Bytes} {p : CanonPath}
    (h : fromFilename segment = .ok p) : Canonical p := by
  simp only [fromFilename, bind_eq_ok, pure_eq_ok] at h
  obtain ⟨res, hres, -, -, heq⟩ := h
  cases heq
  exact canonical_ofRaw hres

-- ============================================================================
-- push
-- ============================================================================

/-- What `push` lets through. -/
def Pushable (c : Bytes) : Prop := 0x2f ∉ c ∧ (c ≠ ascii "." ∧ c ≠ ascii "..") ∧ 0 ∉ c

theorem push_eq_ok {p q : CanonPath} {c : Bytes} : p.push c = .ok q ↔
    Pushable c ∧ q = ⟨if p.isRoot then p.path ++ c else p.path ++ 0x2f :: c⟩ := by
  simp only [push, bind_eq_ok, throwIf_eq_ok, ensureNoNullBytes_eq_ok, pure_eq_ok, not_or]
  constructor
  · rintro ⟨-, hslash, -, hdots, -, hnul, heq⟩
    exact ⟨⟨hslash, hdots, hnul⟩, (Except.ok.inj heq).symm⟩
  · rintro ⟨⟨hslash, hdots, hnul⟩, rfl⟩
    exact ⟨(), hslash, (), hdots, (), hnul, rfl⟩

theorem isName_iff {c : Bytes} : IsName c ↔ c ≠ [] ∧ Pushable c := by
  unfold IsName NormalComponent Pushable
  tauto

/-- A component, empty or not, goes to the end of a path. -/
theorem append_ofComponents {l : List Bytes} (hroot : l ≠ [] → (ofComponents l).isRoot = false)
    (c : Bytes) :
    (⟨if (ofComponents l).isRoot then (ofComponents l).path ++ c
      else (ofComponents l).path ++ 0x2f :: c⟩ : CanonPath) = ofComponents (l ++ [c]) := by
  apply congrArg CanonPath.mk
  rw [renderPath, if_neg (List.append_ne_nil_of_right_ne_nil l (List.cons_ne_nil c []))]
  by_cases hl : l = []
  · subst hl
    exact (List.append_nil (0x2f :: c)).symm
  · rw [hroot hl, if_neg Bool.false_ne_true, ofComponents_of_ne_nil hl, List.flatMap_append,
      List.flatMap_singleton]

/-- A list of components with a first one that is not empty is not the root. -/
theorem isRoot_eq_false {l : List Bytes} (hne : l ≠ []) (hfirst : l.head? ≠ some []) :
    (ofComponents l).isRoot = false := by
  obtain ⟨c, l, rfl⟩ := List.exists_cons_of_ne_nil hne
  have hc : 0 < c.length := List.length_pos_iff.mpr fun hnil => hfirst (by rw [hnil]; rfl)
  rw [isRoot, ofComponents_of_ne_nil hne, List.flatMap_cons, decide_eq_false_iff_not,
    List.length_append, List.length_cons]
  omega

theorem head?_ne_some_nil {q : NodePath} (hq : ∀ c ∈ q, IsName c) : q.head? ≠ some [] :=
  fun hfirst => (hq [] (List.mem_of_head? hfirst)).1.1 rfl

/-- Pushing onto a canonical path keeps it canonical unless an empty component
    goes below another one. -/
theorem canonical_push {p q : CanonPath} {c : Bytes} (hp : Canonical p) (h : p.push c = .ok q) :
    Canonical q ↔ (c = [] → p.isRoot) := by
  obtain ⟨comps, hnames, rfl⟩ := canonical_iff.mp hp
  obtain ⟨hc, rfl⟩ := push_eq_ok.mp h
  have hfirst := head?_ne_some_nil hnames
  by_cases hnil : comps = []
  · subst hnil
    refine iff_of_true ?_ fun _ => rfl
    by_cases hempty : c = []
    · rw [hempty]
      exact canonical_root
    · have hall : ∀ d ∈ [c], IsName d := by
        intro d hd
        rw [List.mem_singleton.mp hd]
        exact isName_iff.mpr ⟨hempty, hc⟩
      rw [append_ofComponents (fun h => absurd rfl h), List.nil_append]
      exact canonical_of_names hall
  · rw [append_ofComponents fun _ => isRoot_eq_false hnil hfirst, isRoot_eq_false hnil hfirst,
      canonical_ofComponents, List.forall_mem_append, List.forall_mem_singleton, isName_iff]
    · simp only [hc, and_true, Bool.false_eq_true, imp_false]
      exact and_iff_right hnames
    · rw [List.forall_mem_append, List.forall_mem_singleton]
      exact ⟨fun d hd => (hnames d hd).1.2.2.2, hc.1⟩
    · rw [List.head?_append_of_ne_nil _ hnil]
      exact hfirst

-- ============================================================================
-- A vector of elements
-- ============================================================================

/-- Pushing one element after the other below a path that is not the root. -/
theorem foldlM_push_ofComponents (elems : List Bytes) (h : ∀ c ∈ elems, Pushable c)
    {l : List Bytes} (hne : l ≠ []) (hfirst : l.head? ≠ some []) :
    elems.foldlM push (ofComponents l) = .ok (ofComponents (l ++ elems)) := by
  induction elems generalizing l with
  | nil =>
      rw [List.append_nil]
      rfl
  | cons c elems ih =>
      have hpush : (ofComponents l).push c = .ok (ofComponents (l ++ [c])) :=
        push_eq_ok.mpr ⟨h c List.mem_cons_self,
          (append_ofComponents (fun _ => isRoot_eq_false hne hfirst) c).symm⟩
      rw [List.foldlM_cons, hpush, ok_bind,
        ih (fun d hd => h d (List.mem_cons_of_mem _ hd))
          (List.append_ne_nil_of_right_ne_nil l (List.cons_ne_nil c []))
          (by rwa [List.head?_append_of_ne_nil _ hne]),
        List.append_assoc, List.singleton_append]

/-- Empty elements at the root are not seen; all others become components. -/
theorem ofElems_eq {elems : List Bytes} (h : ∀ c ∈ elems, Pushable c) :
    ofElems elems = .ok (ofComponents (elems.dropWhile (· == []))) := by
  unfold ofElems
  induction elems with
  | nil => rfl
  | cons c elems ih =>
      have hrest : ∀ d ∈ elems, Pushable d := fun d hd => h d (List.mem_cons_of_mem _ hd)
      have hpush : root.push c = .ok (ofComponents [c]) :=
        push_eq_ok.mpr ⟨h c List.mem_cons_self,
          (@append_ofComponents [] (fun hne => absurd rfl hne) c).symm⟩
      rw [List.foldlM_cons, hpush, ok_bind, List.dropWhile_cons]
      by_cases hc : c = []
      · subst hc
        exact ih hrest
      · have hfirst : [c].head? ≠ some [] := fun heq => hc (Option.some.inj heq)
        rw [foldlM_push_ofComponents elems hrest (List.cons_ne_nil c []) hfirst,
          if_neg (by simpa using hc), List.singleton_append]

theorem pushable_of_ofElems {elems : List Bytes} {p q : CanonPath}
    (h : elems.foldlM push p = .ok q) : ∀ c ∈ elems, Pushable c := by
  induction elems generalizing p with
  | nil => exact nofun
  | cons c elems ih =>
      rw [List.foldlM_cons, bind_eq_ok] at h
      obtain ⟨r, hpush, hrest⟩ := h
      intro d hd
      rcases List.mem_cons.mp hd with rfl | hd
      · exact (push_eq_ok.mp hpush).1
      · exact ih hrest d hd

/-- The first element that is kept is not empty. -/
theorem head?_dropWhile_nil (elems : List Bytes) :
    (elems.dropWhile (· == [])).head? ≠ some [] := by
  intro hfirst
  have hnot := List.head?_dropWhile_not (· == ([] : Bytes)) elems
  rw [hfirst] at hnot
  cases hnot

theorem canonical_ofElems {elems : List Bytes} {p : CanonPath} (h : ofElems elems = .ok p) :
    Canonical p ↔ [] ∉ elems.dropWhile (· == []) := by
  have hpush := pushable_of_ofElems h
  have hkept : ∀ c ∈ elems.dropWhile (· == []), Pushable c := fun c hc =>
    hpush c ((List.dropWhile_sublist _).mem hc)
  rw [ofElems_eq hpush, Except.ok.injEq] at h
  rw [← h, canonical_ofComponents (fun c hc => (hkept c hc).1) (head?_dropWhile_nil elems)]
  constructor
  · intro hnames hmem
    exact (hnames [] hmem).1.1 rfl
  · intro hmem c hc
    exact isName_iff.mpr ⟨fun hnil => hmem (hnil ▸ hc), hkept c hc⟩

-- ============================================================================
-- The operations on canonical paths
-- ============================================================================

theorem canonical_extend {p x : CanonPath} (hp : Canonical p) (hx : Canonical x) :
    Canonical (p.extend x) := by
  obtain ⟨q, hq, rfl⟩ := canonical_iff.mp hp
  obtain ⟨r, hr, rfl⟩ := canonical_iff.mp hx
  rw [extend_ofComponents (fun c hc => (hq c hc).1.1) fun c hc => (hr c hc).1.1]
  exact canonical_of_names (List.forall_mem_append.mpr ⟨hq, hr⟩)

/-- The last component is taken off. -/
theorem upToLast_ofComponents {q : NodePath} (hq : ∀ c ∈ q, IsName c) :
    (⟨(ofComponents q).upToLast⟩ : CanonPath) = ofComponents q.dropLast := by
  rcases List.eq_nil_or_concat q with rfl | ⟨front, c, rfl⟩
  · rfl
  · rw [List.concat_eq_append] at hq ⊢
    have hslash := (hq c (List.mem_append_right _ List.mem_cons_self)).1.2.2.2
    rw [upToLast, ofComponents_of_ne_nil (List.append_ne_nil_of_right_ne_nil _ (List.cons_ne_nil c [])),
      List.flatMap_append, List.flatMap_singleton, rfindSlash_append _ hslash,
      List.dropLast_concat]
    apply congrArg CanonPath.mk
    show List.take _ _ = _
    by_cases hfront : front = []
    · subst hfront
      rfl
    · have hlen : 1 ≤ (front.flatMap fun c => (0x2f : UInt8) :: c).length := by
        obtain ⟨d, more, rfl⟩ := List.exists_cons_of_ne_nil hfront
        rw [List.flatMap_cons, List.length_append, List.length_cons]
        omega
      rw [Nat.max_eq_right hlen, List.take_left, renderPath, if_neg hfront]

theorem canonical_upToLast {p : CanonPath} (hp : Canonical p) : Canonical ⟨p.upToLast⟩ := by
  obtain ⟨q, hq, rfl⟩ := canonical_iff.mp hp
  rw [upToLast_ofComponents hq]
  exact canonical_of_names fun c hc => hq c (List.dropLast_subset _ hc)

-- ============================================================================
-- isWithin and removePrefix
-- ============================================================================

theorem isWithin_iff {p parent : CanonPath} : p.isWithin parent = true ↔
    ∃ rest, p.path = parent.path ++ rest ∧
      (parent.path.length ≤ 1 ∨ rest = [] ∨ rest.head? = some 0x2f) := by
  unfold isWithin
  constructor
  · intro h
    simp only [Bool.not_eq_true', Bool.or_eq_false_iff, decide_eq_false_iff_not, not_not,
      Bool.and_eq_false_iff, not_lt] at h
    obtain ⟨⟨-, hpre⟩, hnext⟩ := h
    refine ⟨p.path.drop parent.path.length, ?_, ?_⟩
    · conv_lhs => rw [← List.take_append_drop parent.path.length p.path, hpre]
    · rcases hnext with (hroot | hend) | hslash
      · exact Or.inl hroot
      · exact Or.inr (Or.inl (List.drop_eq_nil_of_le hend))
      · rw [List.head?_drop]
        exact Or.inr (Or.inr hslash)
  · rintro ⟨rest, hpath, hnext⟩
    rw [hpath, List.take_left, List.length_append]
    simp only [Bool.not_eq_true', Bool.or_eq_false_iff, decide_eq_false_iff_not, not_not,
      Bool.and_eq_false_iff, not_lt]
    refine ⟨⟨Nat.le_add_right _ _, trivial⟩, ?_⟩
    rcases hnext with hroot | hend | hslash
    · exact Or.inl (Or.inl hroot)
    · rw [hend]
      exact Or.inl (Or.inr (Nat.le_refl _))
    · rw [List.getElem?_append_right (Nat.le_refl _), Nat.sub_self, ← List.head?_eq_getElem?]
      exact Or.inr hslash

/-- Being within is having the components in front. -/
theorem isWithin_ofComponents {q r : NodePath} (hq : ∀ c ∈ q, IsName c) (hr : ∀ c ∈ r, IsName c) :
    (ofComponents q).isWithin (ofComponents r) = true ↔ r <+: q := by
  rw [isWithin_iff]
  by_cases hroot : r = []
  · subst hroot
    refine iff_of_true ?_ List.nil_prefix
    obtain ⟨rest, hrest⟩ := List.head?_eq_some_iff.mp (canonical_of_names hq).slash
    exact ⟨rest, hrest, Or.inl (Nat.le_refl _)⟩
  have hsplit := splitOn_ofComponents hroot fun c hc => (hr c hc).1.2.2.2
  constructor
  · rintro ⟨rest, hpath, hnext⟩
    rcases hnext with hlen | hend | hslash
    · have hnot := isRoot_eq_false hroot (head?_ne_some_nil hr)
      rw [isRoot, decide_eq_false_iff_not] at hnot
      exact absurd hlen hnot
    · rw [hend, List.append_nil] at hpath
      have hsame : q = r := ofComponents_inj (fun c hc => (hq c hc).1) (fun c hc => (hr c hc).1)
        (congrArg CanonPath.mk hpath)
      exact hsame ▸ List.prefix_refl q
    · obtain ⟨more, rfl⟩ := List.head?_eq_some_iff.mp hslash
      have hne : q ≠ [] := by
        rintro rfl
        have hlen := congrArg List.length hpath
        have hnot := isRoot_eq_false hroot (head?_ne_some_nil hr)
        rw [isRoot, decide_eq_false_iff_not] at hnot
        rw [List.length_append, List.length_cons] at hlen
        change 1 = _ at hlen
        omega
      have hwhole := splitOn_ofComponents hne fun c hc => (hq c hc).1.2.2.2
      rw [hpath, List.splitOn_append_cons_self, hsplit, List.cons_append, List.cons.injEq] at hwhole
      exact ⟨_, hwhole.2⟩
  · rintro ⟨more, rfl⟩
    have hne : r ++ more ≠ [] := List.append_ne_nil_of_left_ne_nil hroot more
    refine ⟨more.flatMap fun c => 0x2f :: c, ?_, Or.inr ?_⟩
    · rw [ofComponents_of_ne_nil hne, ofComponents_of_ne_nil hroot, List.flatMap_append]
    · cases more with
      | nil => exact Or.inl rfl
      | cons c more => exact Or.inr rfl

/-- The components below the prefix are left. -/
theorem removePrefix_ofComponents {r more : NodePath} (h : ∀ c ∈ r ++ more, IsName c) :
    (ofComponents (r ++ more)).removePrefix (ofComponents r) = .ok (ofComponents more) := by
  obtain ⟨hr, hmore⟩ := List.forall_mem_append.mp h
  have hwithin := (isWithin_ofComponents h hr).mpr ⟨more, rfl⟩
  rw [removePrefix, throwIf, hwithin, if_neg (by decide), ok_bind]
  apply congrArg Except.ok
  by_cases hroot : r = []
  · subst hroot
    rfl
  have hne : r ++ more ≠ [] := List.append_ne_nil_of_left_ne_nil hroot more
  rw [isRoot_eq_false hroot (head?_ne_some_nil hr), if_neg Bool.false_ne_true,
    ofComponents_of_ne_nil hne, ofComponents_of_ne_nil hroot, List.flatMap_append,
    List.length_append, List.drop_left]
  by_cases hnil : more = []
  · subst hnil
    exact if_pos rfl
  · obtain ⟨c, rest, rfl⟩ := List.exists_cons_of_ne_nil hnil
    rw [if_neg, ofComponents, renderPath, if_neg hnil]
    rw [List.flatMap_cons, List.length_append, List.length_cons]
    omega

theorem canonical_removePrefix {p pre r : CanonPath} (hp : Canonical p) (hpre : Canonical pre)
    (h : p.removePrefix pre = .ok r) : Canonical r := by
  obtain ⟨q, hq, rfl⟩ := canonical_iff.mp hp
  obtain ⟨q', hq', rfl⟩ := canonical_iff.mp hpre
  have hwithin : (ofComponents q).isWithin (ofComponents q') = true := by
    rw [removePrefix, bind_eq_ok] at h
    obtain ⟨u, hassert, -⟩ := h
    rw [throwIf_eq_ok] at hassert
    simpa using hassert
  obtain ⟨more, rfl⟩ := (isWithin_ofComponents hq hq').mp hwithin
  rw [removePrefix_ofComponents hq, Except.ok.injEq] at h
  rw [← h]
  exact canonical_of_names (List.forall_mem_append.mp hq).2

-- ============================================================================
-- Any sequence of constructors and operations
-- ============================================================================

theorem toOption_eq_some {α : Type} {x : Except Error α} {a : α} :
    x.toOption = some a ↔ x = .ok a := by
  cases x with
  | error e => exact ⟨nofun, nofun⟩
  | ok b => exact ⟨fun h => congrArg Except.ok (Option.some.inj h), fun h => by rw [h]; rfl⟩

/-- What a `CanonPath` was made with. -/
inductive Term where
  | ofRaw (raw : Bytes)
  | ofCString (raw : Bytes)
  | ofRelative (raw : Bytes) (root : Term)
  | ofElems (elems : List Bytes)
  | fromFilename (segment : Bytes)
  | push (p : Term) (c : Bytes)
  | extend (p x : Term)
  | pop (p : Term)
  | parent (p : Term)
  | removePrefix (p pre : Term)

namespace Term

/-- The path, if no precondition on the way to it fails. -/
def value : Term → Option CanonPath
  | ofRaw raw => (CanonPath.ofRaw raw).toOption
  | ofCString raw => (CanonPath.ofCString raw).toOption
  | ofRelative raw root => root.value.bind fun root => (CanonPath.ofRelative raw root).toOption
  | ofElems elems => (CanonPath.ofElems elems).toOption
  | fromFilename segment => (CanonPath.fromFilename segment).toOption
  | push p c => p.value.bind fun p => (p.push c).toOption
  | extend p x => p.value.bind fun p => x.value.map p.extend
  | pop p => p.value.bind fun p => p.pop.toOption
  | parent p => p.value.bind CanonPath.parent
  | removePrefix p pre => p.value.bind fun p => pre.value.bind fun pre => (p.removePrefix pre).toOption

/-- A property of a term and of all that it was made with. -/
def All (P : Term → Prop) : Term → Prop
  | ofRaw raw => P (ofRaw raw)
  | ofCString raw => P (ofCString raw)
  | ofRelative raw root => P (ofRelative raw root) ∧ root.All P
  | ofElems elems => P (ofElems elems)
  | fromFilename segment => P (fromFilename segment)
  | push p c => P (push p c) ∧ p.All P
  | extend p x => P (extend p x) ∧ p.All P ∧ x.All P
  | pop p => P (pop p) ∧ p.All P
  | parent p => P (parent p) ∧ p.All P
  | removePrefix p pre => P (removePrefix p pre) ∧ p.All P ∧ pre.All P

/-- The path, if there is one, is canonical. -/
def Canonical (t : Term) : Prop := ∀ p, t.value = some p → CanonPath.Canonical p

/-- The last operation puts an empty component below another one. -/
def AddsEmpty : Term → Prop
  | push p c => c = [] ∧ ∃ q, p.value = some q ∧ q.isRoot = false
  | ofElems elems => (∀ c ∈ elems, Pushable c) ∧ [] ∈ elems.dropWhile (· == [])
  | _ => False

/-- The paths that the last operation is applied to. -/
def operands : Term → List Term
  | ofRaw _ | ofCString _ | ofElems _ | fromFilename _ => []
  | ofRelative _ p | push p _ | pop p | parent p => [p]
  | extend p x | removePrefix p x => [p, x]

theorem all_iff {P : Term → Prop} {t : Term} :
    t.All P ↔ P t ∧ ∀ s ∈ t.operands, s.All P := by
  cases t <;> simp [All, operands]

theorem operands_induction {P : Term → Prop} (h : ∀ t, (∀ s ∈ t.operands, P s) → P t) (t : Term) :
    P t := by
  induction t with
  | ofRaw | ofCString | ofElems | fromFilename => exact h _ nofun
  | ofRelative _ p ih | push p _ ih | pop p ih | parent p ih =>
      apply h
      intro s hs
      rwa [List.mem_singleton.mp hs]
  | extend p x ihp ihx | removePrefix p x ihp ihx =>
      apply h
      intro s hs
      rcases List.mem_pair.mp hs with rfl | rfl
      · exact ihp
      · exact ihx

theorem canonical_push {p : Term} {c : Bytes} (hp : p.Canonical) :
    (push p c).Canonical ↔ ¬ (push p c).AddsEmpty := by
  constructor
  · rintro h ⟨rfl, q, hq, hroot⟩
    obtain ⟨r, hpush⟩ : ∃ r, q.push [] = .ok r :=
      ⟨_, push_eq_ok.mpr ⟨by unfold Pushable; decide, rfl⟩⟩
    have hvalue : (push p []).value = some r := by
      rw [value, hq, Option.bind_some, hpush]
      rfl
    have hempty := (CanonPath.canonical_push (hp q hq) hpush).mp (h _ hvalue) rfl
    rw [hroot] at hempty
    cases hempty
  · intro hnot r hr
    rw [value, Option.bind_eq_some_iff] at hr
    obtain ⟨q, hq, hpush⟩ := hr
    apply (CanonPath.canonical_push (hp q hq) (toOption_eq_some.mp hpush)).mpr
    intro hc
    by_contra hroot
    exact hnot ⟨hc, q, hq, by simpa using hroot⟩

theorem canonical_ofElems {elems : List Bytes} :
    (ofElems elems).Canonical ↔ ¬ (ofElems elems).AddsEmpty := by
  constructor
  · rintro h ⟨hpush, hmem⟩
    have hvalue : (ofElems elems).value = some (ofComponents (elems.dropWhile (· == []))) := by
      rw [value, ofElems_eq hpush]
      rfl
    exact (CanonPath.canonical_ofElems (ofElems_eq hpush)).mp (h _ hvalue) hmem
  · intro hnot p hp
    have hok := toOption_eq_some.mp hp
    apply (CanonPath.canonical_ofElems hok).mpr
    intro hmem
    exact hnot ⟨pushable_of_ofElems hok, hmem⟩

/-- What one constructor or operation does, its operands being canonical. -/
theorem canonical_step {t : Term} (h : ∀ s ∈ t.operands, s.Canonical) :
    t.Canonical ↔ ¬ t.AddsEmpty := by
  cases t with
  | push p c => exact canonical_push (h p List.mem_cons_self)
  | ofElems elems => exact canonical_ofElems
  | ofRaw raw =>
      exact iff_of_true (fun p hp => canonical_ofRaw (toOption_eq_some.mp hp)) id
  | ofCString raw =>
      exact iff_of_true (fun p hp => canonical_ofCString (toOption_eq_some.mp hp)) id
  | fromFilename segment =>
      exact iff_of_true (fun p hp => canonical_fromFilename (toOption_eq_some.mp hp)) id
  | ofRelative raw root =>
      refine iff_of_true (fun p hp => ?_) id
      obtain ⟨r, hr, hp⟩ := Option.bind_eq_some_iff.mp hp
      exact canonical_ofRelative (h root List.mem_cons_self r hr) (toOption_eq_some.mp hp)
  | extend p x =>
      refine iff_of_true (fun q hq => ?_) id
      obtain ⟨r, hr, hq⟩ := Option.bind_eq_some_iff.mp hq
      obtain ⟨y, hy, rfl⟩ := Option.map_eq_some_iff.mp hq
      exact canonical_extend (h p List.mem_cons_self r hr)
        (h x (List.mem_cons_of_mem _ List.mem_cons_self) y hy)
  | pop p =>
      refine iff_of_true (fun q hq => ?_) id
      obtain ⟨r, hr, hq⟩ := Option.bind_eq_some_iff.mp hq
      have hpop := toOption_eq_some.mp hq
      rw [CanonPath.pop, bind_eq_ok] at hpop
      obtain ⟨-, -, hpop⟩ := hpop
      rw [← Except.ok.inj hpop]
      exact canonical_upToLast (h p List.mem_cons_self r hr)
  | parent p =>
      refine iff_of_true (fun q hq => ?_) id
      obtain ⟨r, hr, hq⟩ := Option.bind_eq_some_iff.mp hq
      unfold CanonPath.parent at hq
      split at hq
      · cases hq
      · rw [← Option.some.inj hq]
        exact canonical_upToLast (h p List.mem_cons_self r hr)
  | removePrefix p pre =>
      refine iff_of_true (fun q hq => ?_) id
      obtain ⟨r, hr, hq⟩ := Option.bind_eq_some_iff.mp hq
      obtain ⟨y, hy, hq⟩ := Option.bind_eq_some_iff.mp hq
      exact canonical_removePrefix (h p List.mem_cons_self r hr)
        (h pre (List.mem_cons_of_mem _ List.mem_cons_self) y hy) (toOption_eq_some.mp hq)

/-- Every path made on the way is canonical just when no `push` puts an empty
    component below another component and no vector has an empty element after
    one that is not. -/
theorem all_canonical_iff (t : Term) : t.All Canonical ↔ t.All fun s => ¬ s.AddsEmpty := by
  induction t using operands_induction with
  | h t ih =>
      have hoperands : (∀ s ∈ t.operands, s.All Canonical)
          ↔ ∀ s ∈ t.operands, s.All fun s => ¬ s.AddsEmpty :=
        forall₂_congr ih
      rw [all_iff, all_iff, ← hoperands]
      apply and_congr_left
      intro h
      exact canonical_step fun s hs => (all_iff.mp (h s hs)).1

/-- An empty component pushed onto "/a". -/
theorem push_empty_not_canonical :
    ¬ ∀ (t : Term) (p : CanonPath), t.value = some p → CanonPath.Canonical p := by
  intro h
  have hbase : (ofElems [ascii "a"]).value = some (ofComponents [ascii "a"]) := rfl
  have hvalue : (push (ofElems [ascii "a"]) []).value = some ⟨ascii "/a/"⟩ := by
    rw [value, hbase]
    rfl
  have hroot := (h _ _ hvalue).last (by decide)
  exact absurd hroot (by decide)

end Term

end CanonPath

end NixStore
