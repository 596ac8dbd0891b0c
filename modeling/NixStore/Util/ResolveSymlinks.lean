/-
  NixStore.Util.ResolveSymlinks

  `SourceAccessor::resolveSymlinks` (`libutil/source-accessor.cc`).

  The loop ends because a followed link uses up one of the links allowed and
  every other round shortens the work list.  The components that were pushed
  have been looked at and are no symlinks, but for the last one in the mode
  that resolves ancestors only (`Walked`).  The root is never looked at.
-/

import NixStore.Lib.Rounds
import NixStore.Util.CanonPathRelative
import NixStore.Util.Signature

namespace NixStore

/-- `SourceAccessor::Type`. -/
inductive SourceAccessor.NodeType where
  | regular
  | symlink
  | directory
  | char
  | block
  | socket
  | fifo
  | unknown
deriving DecidableEq

/-- What `resolveSymlinks` asks a `SourceAccessor`. -/
structure SourceAccessor where
  showPath : CanonPath → String
  maybeLstat : CanonPath → Except Error (Option SourceAccessor.NodeType)
  readLink : CanonPath → Except Error Bytes

/-- `SymlinkResolution`. -/
inductive SymlinkResolution where
  | ancestors
  | full
deriving DecidableEq

namespace SourceAccessor

open CanonPath Rounds

-- ============================================================================
-- resolveSymlinks
-- ============================================================================

/-- The variables of the loop. -/
structure Walk where
  res : CanonPath
  linksAllowed : Nat
  todo : List Bytes

/-- The directory that "..", from `res`, leads to. -/
def above (res : CanonPath) : Except Error CanonPath :=
  if res.isRoot then pure res else res.pop

/-- The directory that a target is resolved from, for the link `res`. -/
def linkBase (target : Bytes) (res : CanonPath) : Except Error CanonPath :=
  if target.head? = some 0x2f then pure root else res.pop

/-- What the loop does with the first component `c` of the work list. -/
def visit (acc : SourceAccessor) (path : CanonPath) (mode : SymlinkResolution) (res : CanonPath)
    (linksAllowed : Nat) (c : Bytes) (todo : List Bytes) : Except Error Walk := do
  if c = [] ∨ c = ascii "." then
    pure ⟨res, linksAllowed, todo⟩
  else if c = ascii ".." then
    pure ⟨← above res, linksAllowed, todo⟩
  else
    let res ← res.push c
    if mode = .full ∨ todo ≠ [] then
      let st ← acc.maybeLstat res
      if st = some .symlink then
        throwIf (linksAllowed = 0)
          (.error s!"infinite symlink recursion in path '{acc.showPath path}'")
        let target ← acc.readLink res
        pure ⟨← linkBase target res, linksAllowed - 1, tokenizeString target 0x2f ++ todo⟩
      else
        pure ⟨res, linksAllowed, todo⟩
    else
      pure ⟨res, linksAllowed, todo⟩

/-- One round of the loop. -/
def round (acc : SourceAccessor) (path : CanonPath) (mode : SymlinkResolution) (w : Walk) :
    Except Error (Walk ⊕ CanonPath) :=
  match w.todo with
  | [] => .ok (.inr w.res)
  | c :: todo => (acc.visit path mode w.res w.linksAllowed c todo).map Sum.inl

/-- The state before the first round. -/
def start (path : CanonPath) : Walk := ⟨root, 1024, path.begin.components⟩

/-- `SourceAccessor::resolveSymlinks`, in so many rounds. -/
def resolveSymlinks (acc : SourceAccessor) (fuel : Nat) (path : CanonPath)
    (mode : SymlinkResolution) : Option (Except Error CanonPath) :=
  rounds (acc.round path mode) fuel (start path)

/-- The call ends with this result. -/
def Resolves (acc : SourceAccessor) (path : CanonPath) (mode : SymlinkResolution)
    (r : Except Error CanonPath) : Prop :=
  ∃ fuel, acc.resolveSymlinks fuel path mode = some r

-- ============================================================================
-- A round
-- ============================================================================

section Visit

variable {acc : SourceAccessor} {path res : CanonPath} {mode : SymlinkResolution}
  {linksAllowed : Nat} {c : Bytes} {todo : List Bytes} {w : Walk}

/-- What a round can do.  It drops a component, goes up, pushes a component that
    it looked at or did not have to, or follows a link. -/
inductive Visited (acc : SourceAccessor) (mode : SymlinkResolution) (res : CanonPath)
    (linksAllowed : Nat) (c : Bytes) (todo : List Bytes) : Walk → Prop where
  | skip : Visited acc mode res linksAllowed c todo ⟨res, linksAllowed, todo⟩
  | up : Visited acc mode res linksAllowed c todo
      ⟨if res.isRoot then res else ⟨res.upToLast⟩, linksAllowed, todo⟩
  | plain {r : CanonPath} {st : Option SourceAccessor.NodeType} : c ≠ [] → res.push c = .ok r →
      acc.maybeLstat r = .ok st → st ≠ some .symlink →
      Visited acc mode res linksAllowed c todo ⟨r, linksAllowed, todo⟩
  | last {r : CanonPath} : c ≠ [] → res.push c = .ok r → mode = .ancestors → todo = [] →
      Visited acc mode res linksAllowed c todo ⟨r, linksAllowed, todo⟩
  | link {r : CanonPath} {target : Bytes} : c ≠ [] → res.push c = .ok r → 0 < linksAllowed →
      Visited acc mode res linksAllowed c todo
        ⟨if target.head? = some 0x2f then root else ⟨r.upToLast⟩, linksAllowed - 1,
          tokenizeString target 0x2f ++ todo⟩

theorem pop_eq_ok {p q : CanonPath} :
    p.pop = .ok q ↔ p.isRoot = false ∧ q = ⟨p.upToLast⟩ := by
  simp only [pop, bind_eq_ok, throwIf_eq_ok, pure_eq_ok]
  constructor
  · rintro ⟨-, hroot, heq⟩
    exact ⟨by simpa using hroot, (Except.ok.inj heq).symm⟩
  · rintro ⟨hroot, rfl⟩
    exact ⟨(), by simpa using hroot, rfl⟩

theorem above_eq_ok {r : CanonPath} :
    above res = .ok r ↔ r = if res.isRoot then res else ⟨res.upToLast⟩ := by
  unfold above
  split
  · exact ⟨fun h => (Except.ok.inj h).symm, fun h => h ▸ rfl⟩
  · next hroot =>
      rw [pop_eq_ok]
      exact and_iff_right (by simpa using hroot)

theorem of_linkBase {target : Bytes} {r : CanonPath} (h : linkBase target res = .ok r) :
    r = if target.head? = some 0x2f then root else ⟨res.upToLast⟩ := by
  unfold linkBase at h
  split at h
  · next habs =>
      rw [if_pos habs]
      exact (Except.ok.inj h).symm
  · next habs =>
      rw [if_neg habs]
      exact (pop_eq_ok.mp h).2

theorem visited (h : acc.visit path mode res linksAllowed c todo = .ok w) :
    Visited acc mode res linksAllowed c todo w := by
  unfold visit at h
  split at h
  · cases h
    exact Visited.skip
  next hskip =>
  rw [not_or] at hskip
  split at h
  · obtain ⟨r, hr, heq⟩ := bind_eq_ok.mp h
    cases heq
    rw [above_eq_ok.mp hr]
    exact Visited.up
  obtain ⟨r, hpush, h⟩ := bind_eq_ok.mp h
  split at h
  · obtain ⟨st, hst, h⟩ := bind_eq_ok.mp h
    split at h
    · simp only [bind_eq_ok, throwIf_eq_ok] at h
      obtain ⟨-, hlinks, target, -, r', hr', heq⟩ := h
      cases heq
      rw [of_linkBase hr']
      exact Visited.link hskip.1 hpush (Nat.pos_of_ne_zero hlinks)
    · next hplain =>
        cases h
        exact Visited.plain hskip.1 hpush hst hplain
  · next hlast =>
      cases h
      rw [not_or, not_not] at hlast
      have hmode : mode = .ancestors := by
        cases mode with
        | ancestors => rfl
        | full => exact absurd rfl hlast.1
      exact Visited.last hskip.1 hpush hmode hlast.2

end Visit

-- ============================================================================
-- The loop ends
-- ============================================================================

/-- Fewer links are allowed, or as many and less is left to do. -/
def Lower (w' w : Walk) : Prop :=
  Prod.Lex (· < ·) (· < ·) (w'.linksAllowed, w'.todo.length) (w.linksAllowed, w.todo.length)

theorem lower_wf : WellFounded Lower :=
  InvImage.wf (fun w : Walk => (w.linksAllowed, w.todo.length))
    (WellFounded.prod_lex Nat.lt_wfRel.wf Nat.lt_wfRel.wf)

theorem round_eq_next {acc : SourceAccessor} {path : CanonPath} {mode : SymlinkResolution}
    {w w' : Walk} (h : acc.round path mode w = .ok (.inl w')) :
    ∃ c todo, w.todo = c :: todo ∧ Visited acc mode w.res w.linksAllowed c todo w' := by
  unfold round at h
  split at h
  · cases h
  · next c todo htodo =>
      cases hvisit : acc.visit path mode w.res w.linksAllowed c todo with
      | error e =>
          rw [hvisit] at h
          cases h
      | ok next =>
          rw [hvisit] at h
          cases h
          exact ⟨c, todo, htodo, visited hvisit⟩

theorem round_lower {acc : SourceAccessor} {path : CanonPath} {mode : SymlinkResolution}
    {w w' : Walk} (h : acc.round path mode w = .ok (.inl w')) : Lower w' w := by
  obtain ⟨c, todo, htodo, hvisited⟩ := round_eq_next h
  unfold Lower
  rw [htodo]
  have hshort : todo.length < (c :: todo).length := Nat.lt_succ_self _
  cases hvisited with
  | skip => exact Prod.Lex.right _ hshort
  | up => exact Prod.Lex.right _ hshort
  | plain => exact Prod.Lex.right _ hshort
  | last => exact Prod.Lex.right _ hshort
  | link _ _ hlinks => exact Prod.Lex.left _ _ (Nat.sub_lt hlinks Nat.one_pos)

theorem exists_resolves (acc : SourceAccessor) (path : CanonPath) (mode : SymlinkResolution) :
    ∃ r, acc.Resolves path mode r :=
  exists_ends lower_wf (fun _ _ h => round_lower h) (start path)

-- ============================================================================
-- What has been walked
-- ============================================================================

/-- The path is a symlink. -/
def IsSymlink (acc : SourceAccessor) (p : CanonPath) : Prop :=
  acc.maybeLstat p = .ok (some .symlink)

/-- The path was looked at and is no symlink. -/
def Checked (acc : SourceAccessor) (p : CanonPath) : Prop :=
  ∃ st, acc.maybeLstat p = .ok st ∧ st ≠ some .symlink

theorem Checked.not_isSymlink {acc : SourceAccessor} {p : CanonPath} (h : acc.Checked p) :
    ¬ acc.IsSymlink p := by
  obtain ⟨st, hst, hne⟩ := h
  intro hlink
  rw [IsSymlink, hst] at hlink
  exact hne (Except.ok.inj hlink)

/-- The components of the result so far.  All its ancestors but the root have
    been looked at, and so has the result itself unless its last component was
    the last one to do and only ancestors are resolved. -/
structure Walked (acc : SourceAccessor) (mode : SymlinkResolution) (q : NodePath)
    (todo : List Bytes) : Prop where
  names : ∀ c ∈ q, IsName c
  checked : ∀ r, r <+: q → r ≠ [] → r ≠ q → acc.Checked (ofComponents r)
  self : q ≠ [] → mode = .full ∨ todo ≠ [] → acc.Checked (ofComponents q)

section Walked

variable {acc : SourceAccessor} {mode : SymlinkResolution} {q : NodePath} {todo : List Bytes}

/-- While there is something to do, every part of the result has been looked
    at. -/
theorem Walked.all (h : Walked acc mode q todo) (hmore : mode = .full ∨ todo ≠ []) {r : NodePath}
    (hr : r <+: q) (hne : r ≠ []) : acc.Checked (ofComponents r) := by
  by_cases heq : r = q
  · subst heq
    exact h.self hne hmore
  · exact h.checked r hr hne heq

theorem walked_root : Walked acc mode [] todo where
  names := nofun
  checked := fun _ hr hne _ => absurd (List.prefix_nil.mp hr) hne
  self := fun hne => absurd rfl hne

/-- An ancestor of what has been walked. -/
theorem Walked.above (h : Walked acc mode q todo) (hmore : mode = .full ∨ todo ≠ [])
    (todo' : List Bytes) : Walked acc mode q.dropLast todo' where
  names := fun c hc => h.names c (List.dropLast_subset _ hc)
  checked := fun _ hr hne _ => h.all hmore (hr.trans (List.dropLast_prefix q)) hne
  self := fun hne _ => h.all hmore (List.dropLast_prefix q) hne

/-- One component more. -/
theorem Walked.push (h : Walked acc mode q todo) (hmore : mode = .full ∨ todo ≠ []) {c : Bytes}
    (hc : IsName c) {todo' : List Bytes}
    (hself : mode = .full ∨ todo' ≠ [] → acc.Checked (ofComponents (q ++ [c]))) :
    Walked acc mode (q ++ [c]) todo' where
  names := List.forall_mem_append.mpr ⟨h.names, List.forall_mem_singleton.mpr hc⟩
  checked := by
    intro r hr hne hlast
    rcases List.prefix_concat_iff.mp hr with heq | hr
    · exact absurd heq hlast
    · exact h.all hmore hr hne
  self := fun _ hmore' => hself hmore'

theorem Walked.stay (h : Walked acc mode q todo) (hmore : mode = .full ∨ todo ≠ [])
    (todo' : List Bytes) : Walked acc mode q todo' where
  names := h.names
  checked := fun _ hr hne _ => h.all hmore hr hne
  self := fun hne _ => h.all hmore (List.prefix_refl q) hne

/-- What a push appends. -/
theorem push_walked (h : Walked acc mode q todo) {c : Bytes} {r : CanonPath} (hc : c ≠ [])
    (hpush : (ofComponents q).push c = .ok r) : IsName c ∧ r = ofComponents (q ++ [c]) := by
  have hname : IsName c := isName_iff.mpr ⟨hc, (push_eq_ok.mp hpush).1⟩
  rw [push_ofComponents (fun d hd => (h.names d hd).1.1) hname.1 hname.2] at hpush
  exact ⟨hname, (Except.ok.inj hpush).symm⟩

/-- The components walked stay what they are through a round. -/
theorem walked_step {linksAllowed : Nat} {c : Bytes} {w' : Walk}
    (h : Walked acc mode q (c :: todo))
    (hvisited : Visited acc mode (ofComponents q) linksAllowed c todo w') :
    ∃ q', w'.res = ofComponents q' ∧ Walked acc mode q' w'.todo := by
  have hmore : mode = .full ∨ c :: todo ≠ [] := Or.inr (List.cons_ne_nil c todo)
  cases hvisited with
  | skip => exact ⟨q, rfl, h.stay hmore todo⟩
  | up =>
      refine ⟨q.dropLast, ?_, h.above hmore todo⟩
      by_cases hnil : q = []
      · rw [hnil]
        rfl
      · rw [isRoot_eq_false hnil (head?_ne_some_nil h.names), if_neg Bool.false_ne_true]
        exact upToLast_ofComponents h.names
  | plain hc hpush hst hplain =>
      obtain ⟨hname, rfl⟩ := push_walked h hc hpush
      exact ⟨q ++ [c], rfl, h.push hmore hname fun _ => ⟨_, hst, hplain⟩⟩
  | last hc hpush hmode hnil =>
      obtain ⟨hname, rfl⟩ := push_walked h hc hpush
      refine ⟨q ++ [c], rfl, h.push hmore hname ?_⟩
      rintro (hfull | htodo)
      · rw [hmode] at hfull
        cases hfull
      · exact absurd hnil htodo
  | @link r target hc hpush hlinks =>
      obtain ⟨hname, rfl⟩ := push_walked h hc hpush
      by_cases habs : target.head? = some 0x2f
      · exact ⟨[], by rw [if_pos habs]; rfl, walked_root⟩
      · refine ⟨q, ?_, h.stay hmore _⟩
        have hnames := List.forall_mem_append.mpr ⟨h.names, List.forall_mem_singleton.mpr hname⟩
        rw [if_neg habs, upToLast_ofComponents hnames, List.dropLast_concat]

/-- What the loop returns has been walked to its end. -/
theorem resolves_walked {path res : CanonPath} (h : acc.Resolves path mode (.ok res)) :
    ∃ q, res = ofComponents q ∧ Walked acc mode q [] := by
  have hdone := @Ends.invariant Walk CanonPath Error (acc.round path mode)
    (fun w => ∃ q, w.res = ofComponents q ∧ Walked acc mode q w.todo)
    (fun res => ∃ q, res = ofComponents q ∧ Walked acc mode q [])
  apply hdone _ _ ⟨[], rfl, walked_root⟩ h
  · rintro ⟨-, linksAllowed, todo⟩ w' ⟨q, rfl, hwalked⟩ hround
    obtain ⟨c, rest, htodo, hvisited⟩ := round_eq_next hround
    have htodo : todo = c :: rest := htodo
    rw [htodo] at hwalked
    exact walked_step hwalked hvisited
  · rintro ⟨res, linksAllowed, todo⟩ b ⟨q, hres, hwalked⟩ hround
    unfold round at hround
    split at hround
    · next htodo =>
        cases hround
        exact ⟨q, hres, by rwa [show todo = [] from htodo] at hwalked⟩
    · next c rest htodo =>
        cases hvisit : acc.visit path mode res linksAllowed c rest with
        | error e =>
            rw [hvisit] at hround
            cases hround
        | ok next =>
            rw [hvisit] at hround
            cases hround

end Walked

-- ============================================================================
-- Resolving what is resolved
-- ============================================================================

theorem components_iteratorAt {q : NodePath} (hq : ∀ c ∈ q, IsName c) :
    (iteratorAt q).components = q := by
  induction q with
  | nil =>
      rw [Iterator.components, if_pos ((remaining_eq_nil hq).mpr rfl)]
  | cons c q ih =>
      have hc := hq c List.mem_cons_self
      rw [Iterator.components, if_neg fun h => List.cons_ne_nil c q ((remaining_eq_nil hq).mp h),
        deref_iteratorAt hc, next_iteratorAt hc, ih fun d hd => hq d (List.mem_cons_of_mem _ hd)]

theorem start_ofComponents {q : NodePath} (hq : ∀ c ∈ q, IsName c) :
    start (ofComponents q) = ⟨ofComponents [], 1024, q⟩ := by
  rw [start, begin_ofComponents, components_iteratorAt hq]
  rfl

/-- A path without symlinks is walked component by component. -/
theorem ends_of_checked {acc : SourceAccessor} {path : CanonPath} {linksAllowed : Nat}
    {front todo : NodePath} (hnames : ∀ c ∈ front ++ todo, IsName c)
    (hchecked : ∀ r, r <+: front ++ todo → r ≠ [] → acc.Checked (ofComponents r)) :
    Ends (acc.round path .full) ⟨ofComponents front, linksAllowed, todo⟩
      (.ok (ofComponents (front ++ todo))) := by
  induction todo generalizing front with
  | nil =>
      rw [List.append_nil]
      exact ends_done rfl
  | cons c todo ih =>
      have hfront : ∀ d ∈ front, IsName d := (List.forall_mem_append.mp hnames).1
      have hc : IsName c := hnames c (List.mem_append_right _ List.mem_cons_self)
      have happend : front ++ c :: todo = front ++ [c] ++ todo := by
        rw [List.append_assoc, List.singleton_append]
      rw [happend] at hnames hchecked ⊢
      obtain ⟨st, hst, hplain⟩ := hchecked (front ++ [c]) (List.prefix_append _ _)
        (List.append_ne_nil_of_right_ne_nil _ (List.cons_ne_nil c []))
      have hround : acc.round path .full ⟨ofComponents front, linksAllowed, c :: todo⟩
          = .ok (.inl ⟨ofComponents (front ++ [c]), linksAllowed, todo⟩) := by
        have hskip : ¬ (c = [] ∨ c = ascii ".") := by
          rw [not_or]
          exact ⟨hc.1.1, hc.1.2.1⟩
        show (acc.visit path .full (ofComponents front) linksAllowed c todo).map Sum.inl = _
        rw [visit, if_neg hskip, if_neg hc.1.2.2.1,
          push_ofComponents (fun d hd => (hfront d hd).1.1) hc.1 hc.2, ok_bind,
          if_pos (Or.inl rfl), hst, ok_bind, if_neg hplain]
        rfl
      exact ends_next hround (ih hnames hchecked)

/-- `resolveSymlinks` always ends.  No component of a fully resolved path is a
    symlink, and resolving it again gives the same path; when only ancestors are
    resolved, only the last component is possibly a symlink. -/
theorem resolveSymlinks_resolves (acc : SourceAccessor) (path : CanonPath) :
    (∀ mode, ∃ r, acc.Resolves path mode r) ∧
      (∀ res, acc.Resolves path .full (.ok res) →
        (∀ r, Canonical r → res.isWithin r = true → r.isRoot = false → ¬ acc.IsSymlink r) ∧
          acc.Resolves res .full (.ok res)) ∧
      ∀ res, acc.Resolves path .ancestors (.ok res) →
        ∀ r, Canonical r → res.isWithin r = true → r ≠ res → r.isRoot = false →
          ¬ acc.IsSymlink r := by
  have hparts : ∀ {mode : SymlinkResolution} {q : NodePath} {r : CanonPath},
      Walked acc mode q [] → Canonical r → (ofComponents q).isWithin r = true →
        r.isRoot = false → ∃ comps, comps <+: q ∧ comps ≠ [] ∧ r = ofComponents comps := by
    intro mode q r hwalked hr hwithin hroot
    obtain ⟨comps, hcomps, rfl⟩ := canonical_iff.mp hr
    refine ⟨comps, (isWithin_ofComponents hwalked.names hcomps).mp hwithin, ?_, rfl⟩
    rintro rfl
    cases hroot
  refine ⟨exists_resolves acc path, ?_, ?_⟩
  · intro res hres
    obtain ⟨q, rfl, hwalked⟩ := resolves_walked hres
    constructor
    · intro r hr hwithin hroot
      obtain ⟨comps, hprefix, hne, rfl⟩ := hparts hwalked hr hwithin hroot
      exact (hwalked.all (Or.inl rfl) hprefix hne).not_isSymlink
    · have hends := @ends_of_checked acc (ofComponents q) 1024 [] q hwalked.names
        fun r hr hne => hwalked.all (Or.inl rfl) hr hne
      rw [← start_ofComponents hwalked.names] at hends
      exact hends
  · intro res hres r hr hwithin hself hroot
    obtain ⟨q, rfl, hwalked⟩ := resolves_walked hres
    obtain ⟨comps, hprefix, hne, rfl⟩ := hparts hwalked hr hwithin hroot
    apply (hwalked.checked comps hprefix hne _).not_isSymlink
    rintro rfl
    exact hself rfl

namespace Sample

/-- "/l" is a symlink to "d"; all else is a directory. -/
def linkAccessor : SourceAccessor where
  showPath path := showBytes path.abs
  maybeLstat path := .ok (some (if path = ofComponents [ascii "l"] then .symlink else .directory))
  readLink _ := .ok (ascii "d")

theorem linkAccessor_resolves :
    linkAccessor.Resolves (ofComponents [ascii "l"]) .full (.ok (ofComponents [ascii "d"])) := by
  have hnames : ∀ c ∈ [ascii "l"], IsName c := by decide
  refine ⟨3, ?_⟩
  rw [resolveSymlinks, start_ofComponents hnames]
  decide

end Sample

theorem resolveSymlinks_resolves_link :
    Sample.linkAccessor.Resolves (ofComponents [ascii "d"]) .full (.ok (ofComponents [ascii "d"])) :=
  ((resolveSymlinks_resolves Sample.linkAccessor _).2.1 _ Sample.linkAccessor_resolves).2

end SourceAccessor

-- ============================================================================
-- The accessor of a tree
-- ============================================================================

namespace File

open SortedMap

/-- `MemorySourceAccessor::open(path, std::nullopt)` with a root.  `walked` is
    the part of the path already followed, for the message. -/
def openExisting : NodePath → NodePath → File → Except Error (Option File)
  | _, [], cur => .ok (some cur)
  | walked, _ :: _, .symlink _ => .error (.error s!"file '{showPath walked}' is a symlink")
  | _, _ :: _, .regular .. => .ok none
  | walked, name :: rest, .directory entries =>
      match find? name entries with
      | some f => openExisting (walked ++ [name]) rest f
      | none => .ok none

/-- The type in `MemorySourceAccessor::File::lstat`. -/
def lstatType : File → SourceAccessor.NodeType
  | .regular .. => .regular
  | .directory _ => .directory
  | .symlink _ => .symlink

/-- `MemorySourceAccessor::readLink`. -/
def readLink (root : File) (path : CanonPath) : Except Error Bytes := do
  match ← openExisting [] path.begin.components root with
  | none => .error (.error s!"file '{showBytes path.abs}' does not exist")
  | some (.symlink target) => pure target
  | some _ => .error (.error s!"file '{showBytes path.abs}' is not a symbolic link")

/-- A `MemorySourceAccessor` with this root. -/
def sourceAccessor (root : File) : SourceAccessor where
  showPath path := showBytes path.abs
  maybeLstat path := do
    let f ← openExisting [] path.begin.components root
    pure (f.map lstatType)
  readLink := readLink root

end File

namespace SourceAccessor

/-- The root is returned without being looked at, also when it is a symlink. -/
theorem resolveSymlinks_root :
    ¬ ∀ (root : File) (path res : CanonPath), root.sourceAccessor.Resolves path .full (.ok res) →
      ∀ r, CanonPath.Canonical r → res.isWithin r = true → ¬ root.sourceAccessor.IsSymlink r := by
  intro h
  have hcomps : CanonPath.root.begin.components = [] :=
    @components_iteratorAt [] nofun
  have hlink : (File.symlink (ascii "x")).sourceAccessor.IsSymlink CanonPath.root := by
    show (do
      let f ← File.openExisting [] CanonPath.root.begin.components (.symlink (ascii "x"))
      pure (f.map File.lstatType)) = _
    rw [hcomps]
    rfl
  have hends : (File.symlink (ascii "x")).sourceAccessor.Resolves CanonPath.root .full
      (.ok CanonPath.root) := by
    apply Rounds.ends_done
    rw [start, hcomps]
    rfl
  exact h _ _ _ hends _ CanonPath.canonical_root (by decide) hlink

end SourceAccessor

end NixStore
