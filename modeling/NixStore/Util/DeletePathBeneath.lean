/-
  NixStore.Util.DeletePathBeneath

  Whatever others do to the file system while `deletePath` runs, it only removes
  the path itself and entries of directories below it: never an entry of a
  directory that a symbolic link leads to, nor of one that something outside has
  been moved from (`deletePath_stays`).

  `Encloses S` says of a file system that the path stands for something in `S`
  and that no directory in `S` leads out of `S`.  Removing entries keeps this,
  so it is enough that the others do.
-/

import NixStore.Lib.Effect
import NixStore.Util.DeletePath

namespace NixStore
namespace DeletePath

open FileSystemAt Effect

/-- What the name in the directory stands for is in `S`, and no directory in `S`
    leads out of it. -/
structure Encloses (S : Nat → Prop) (parent : Nat) (name : Bytes) (t : Tree) : Prop where
  base : ∀ i, (t.files parent).child name = some i → S i
  closed : ∀ d, S d → ∀ n i, (t.files d).child n = some i → S i

/-- The changes that may be made: the removal of the name itself, and whatever
    is done to what is in `S`. -/
def Change.Inside (S : Nat → Prop) (parent : Nat) (name : Bytes) : Change → Prop
  | .unlink dir n i => (S dir ∨ dir = parent ∧ n = name) ∧ S i
  | .chmod i => S i

/-- Whether something is removed. -/
def Change.isUnlink : Change → Bool
  | .unlink .. => true
  | .chmod _ => false

/-- No mode is changed through a symbolic link. -/
def Surroundings.NeverFollows (env : Surroundings) : Prop :=
  env.haveFchmodat2 = true ∨ env.haveProc = true

section Steps

variable {S : Nat → Prop} {parent : Nat} {name : Bytes} {t : Tree} {c : Change}

theorem Encloses.inside (h : Encloses S parent name t) {dir : Nat} {n : Bytes} {i : Nat}
    (hdir : S dir ∨ dir = parent ∧ n = name) (hname : nameAt t.files dir n = .ok i) : S i := by
  rw [nameAt_eq_ok] at hname
  rcases hdir with hdir | ⟨rfl, rfl⟩
  · exact h.closed dir hdir n i hname
  · exact h.base i hname

/-- A removal takes entries away. -/
theorem Encloses.apply (h : Encloses S parent name t) (c : Change) :
    Encloses S parent name (t.apply c) := by
  have hchild : ∀ d n i, ((t.apply c).files d).child n = some i →
      (t.files d).child n = some i := by
    intro d n i hi
    cases c with
    | chmod _ => exact hi
    | unlink dir n' ino =>
        change (Function.update t.files dir ((t.files dir).without n') d).child n = some i at hi
        rw [Function.update_apply] at hi
        split at hi
        · next hd =>
            subst hd
            rw [Inode.child_without] at hi
            split at hi
            · cases hi
            · exact hi
        · exact hi
  exact ⟨fun i hi => h.base i (hchild _ _ _ hi), fun d hd n i hi => h.closed d hd n i (hchild _ _ _ hi)⟩

theorem unlinkat_inside (h : Encloses S parent name t) {dir : Nat} {n : Bytes} {removeDir : Bool}
    (hdir : S dir ∨ dir = parent ∧ n = name) (hc : unlinkat dir n removeDir t = .ok c) :
    c.Inside S parent name := by
  unfold unlinkat at hc
  cases hname : nameAt t.files dir n with
  | error e =>
      rw [hname] at hc
      cases hc
  | ok i =>
      have hi := h.inside hdir hname
      rw [hname] at hc
      simp only at hc
      split at hc
      · split at hc
        · split at hc
          · cases hc
            exact ⟨hdir, hi⟩
          · cases hc
        · cases hc
      · split at hc
        · cases hc
        · cases hc
          exact ⟨hdir, hi⟩

theorem fchmodat2_inside (h : Encloses S parent name t) {dir : Nat} {n : Bytes}
    (hdir : S dir ∨ dir = parent ∧ n = name) (hc : fchmodat2 dir n t = .ok c) :
    c.Inside S parent name := by
  unfold fchmodat2 at hc
  cases hname : nameAt t.files dir n with
  | error e =>
      rw [hname] at hc
      cases hc
  | ok i =>
      rw [hname] at hc
      simp only at hc
      split at hc
      · cases hc
      · cases hc
        exact h.inside hdir hname

theorem openDirectoryAt_inside (h : Encloses S parent name t) {dir : Nat} {n : Bytes} {i : Nat}
    (hdir : S dir ∨ dir = parent ∧ n = name) (hi : openDirectoryAt dir n t = .ok i) : S i := by
  unfold openDirectoryAt at hi
  cases hname : nameAt t.files dir n with
  | error e =>
      rw [hname] at hi
      cases hi
  | ok j =>
      rw [hname] at hi
      simp only at hi
      split at hi
      · cases hi
        exact h.inside hdir hname
      · cases hi

/-- `fchmodat` changes a mode and removes nothing. -/
theorem isUnlink_fchmodat {env : Surroundings} {dir : Nat} {n : Bytes}
    (hc : fchmodat env dir n t = .ok c) : c.isUnlink = false := by
  unfold fchmodat at hc
  split at hc
  · cases hc
  · split at hc
    · cases hfollow : env.follow t dir _ with
      | error e =>
          rw [hfollow] at hc
          cases hc
      | ok i =>
          rw [hfollow] at hc
          cases hc
          rfl
    · cases hc
      rfl

end Steps

-- ============================================================================
-- A run
-- ============================================================================

section Run

variable {S : Nat → Prop} {parent : Nat} {name : Bytes} {env : Surroundings}

/-- All changes so far are inside, apart from modes that may have been changed
    through a symbolic link. -/
structure Stays (env : Surroundings) (S : Nat → Prop) (parent : Nat) (name : Bytes) (s : Deleting) :
    Prop where
  encloses : Encloses S parent name s.tree
  changes : ∀ c ∈ s.changes, c.isUnlink = true ∨ env.NeverFollows → c.Inside S parent name

/-- The others keep what is enclosed. -/
def Respectful (env : Surroundings) (S : Nat → Prop) (parent : Nat) (name : Bytes) : Prop :=
  ∀ n t, Encloses S parent name t → Encloses S parent name (env.others n t)

variable (henv : Respectful env S parent name)

include henv in
theorem Stays.turn {s : Deleting} (h : Stays env S parent name s) :
    Stays env S parent name (s.turn env) :=
  ⟨henv _ _ h.encloses, h.changes⟩

include henv in
theorem change_stays {f : Tree → Except Errno Change}
    (hf : ∀ t c, Encloses S parent name t → f t = .ok c →
      c.isUnlink = true ∨ env.NeverFollows → c.Inside S parent name) :
    Keeps (Stays env S parent name) (change env f) := by
  intro s h
  have hturn := h.turn henv
  unfold change
  cases env.fails s.time with
  | some code => exact hturn
  | none =>
      cases hc : f (s.turn env).tree with
      | error e =>
          simp only
          exact hturn
      | ok c =>
          simp only
          refine ⟨hturn.encloses.apply c, fun c' hc' => ?_⟩
          rcases List.mem_append.mp hc' with hold | hnew
          · exact hturn.changes c' hold
          · rw [List.mem_singleton.mp hnew]
            exact hf _ c hturn.encloses hc

include henv in
theorem look_stays {α : Type} (f : Tree → Except Errno α) {Q : Except Errno α → Prop}
    (hfails : ∀ e, Q (.error e)) (hf : ∀ t x, Encloses S parent name t → f t = .ok x → Q (.ok x)) :
    Spec (Stays env S parent name) (look env f) (fun r s => Stays env S parent name s ∧ Q r)
      fun _ => Stays env S parent name := by
  intro s h
  have hturn := h.turn henv
  unfold look
  cases env.fails s.time with
  | some code => exact ⟨hturn, hfails _⟩
  | none =>
      refine ⟨hturn, ?_⟩
      cases hx : f (s.turn env).tree with
      | error e => exact hfails e
      | ok x => exact hf _ x hturn.encloses hx

include henv in
theorem readdir_stays (fd : Nat) : Keeps (Stays env S parent name) (readdir env fd) :=
  fun _ h => h.turn henv

include henv in
theorem unlinkLast_stays {dir : Nat} {path : NodePath} {removeDir : Bool}
    (hdir : S dir ∨ dir = parent ∧ filename path = name) :
    Keeps (Stays env S parent name) (unlinkLast env dir path removeDir) := by
  refine .seq (change_stays henv fun t c h hc _ => unlinkat_inside h hdir hc) fun r => ?_
  cases r with
  | ok _ => exact .ret _
  | error e => cases e <;> first | exact .ret _ | exact .change fun s h => ⟨h.encloses, h.changes⟩

include henv in
theorem chmodOrThrow_stays {f : Tree → Except Errno Change} {msg : String}
    (hf : ∀ t c, Encloses S parent name t → f t = .ok c →
      c.isUnlink = true ∨ env.NeverFollows → c.Inside S parent name) :
    Keeps (Stays env S parent name) (chmodOrThrow env f msg) := by
  refine .seq (change_stays henv hf) fun r => ?_
  cases r with
  | ok _ => exact .ret _
  | error e => exact .raise _

include henv in
/-- The mode that is changed is that of something inside, unless there is
    nothing but `fchmodat`. -/
theorem fchmodatTryNoFollow_stays {dir : Nat} {path : NodePath}
    (hdir : S dir ∨ dir = parent ∧ filename path = name) :
    Keeps (Stays env S parent name) (fchmodatTryNoFollow env dir path) := by
  unfold fchmodatTryNoFollow
  cases hfchmodat2 : env.haveFchmodat2 with
  | true => exact chmodOrThrow_stays henv fun t c h hc _ => fchmodat2_inside h hdir hc
  | false =>
      have hopen := look_stays (Q := fun r => ∀ fd, r = .ok fd → S fd) henv
        (openPathAt dir (filename path)) (fun e fd h => by cases h) fun t x h hx fd heq => by
          cases heq
          exact h.inside hdir hx
      refine Spec.seq hopen fun r => Spec.given fun hr => ?_
      cases r with
      | error e => exact Keeps.raise _
      | ok pathFd =>
          have hlook := look_stays (Q := fun _ => True) henv (isSymlinkFd pathFd)
            (fun _ => trivial) fun _ _ _ _ => trivial
          refine Spec.seq hlook fun isSymlink => Spec.given fun _ => ?_
          cases isSymlink with
          | error e => exact Keeps.raise _
          | ok isSymlink =>
              cases isSymlink with
              | true => exact Keeps.raise _
              | false =>
                  cases hproc : env.haveProc with
                  | true =>
                      refine chmodOrThrow_stays henv fun t c h hc _ => ?_
                      cases hc
                      exact hr pathFd rfl
                  | false =>
                      refine chmodOrThrow_stays henv fun t c h hc hmust => ?_
                      rcases hmust with hunlink | hfchmodat2' | hproc'
                      · rw [isUnlink_fchmodat hc] at hunlink
                        cases hunlink
                      · rw [hfchmodat2] at hfchmodat2'
                        cases hfchmodat2'
                      · rw [hproc] at hproc'
                        cases hproc'

include henv in
theorem clearDirectory_stays {visit : Nat → NodePath → DeleteM Unit} {dir : Nat} {path : NodePath}
    (hdir : S dir ∨ dir = parent ∧ filename path = name) (accessible : Bool)
    (hvisit : ∀ fd path', S fd → Keeps (Stays env S parent name) (visit fd path')) :
    Keeps (Stays env S parent name) (clearDirectory env visit dir path accessible) := by
  refine .seq (Keeps.cond (.ret _) (fchmodatTryNoFollow_stays henv hdir)) fun _ => ?_
  · have hopen := look_stays (Q := fun r => ∀ fd, r = .ok fd → S fd) henv
      (openDirectoryAt dir (filename path)) (fun e fd h => by cases h) fun t x h hx fd heq => by
        cases heq
        exact openDirectoryAt_inside h hdir hx
    refine Spec.seq hopen fun r => Spec.given fun hr => ?_
    cases r with
    | error e => exact Keeps.raise _
    | ok fd =>
        refine Keeps.seq (readdir_stays henv fd) fun entries => ?_
        refine .seq (.loop fun childName _ => Keeps.cond (.ret _) (hvisit fd _ (hr fd rfl))) fun _ => ?_
        cases entries.2 with
        | none => exact .ret _
        | some code => exact .raise _

include henv in
theorem deletePathAt_stays (depth : Nat) {dir : Nat} {path : NodePath}
    (hdir : S dir ∨ dir = parent ∧ filename path = name) :
    Keeps (Stays env S parent name) (deletePathAt env depth dir path) := by
  induction depth generalizing dir path with
  | zero => exact .ret _
  | succ depth ih =>
      refine .seq ((look_stays (Q := fun _ => True) henv _ (fun _ => trivial)
        fun _ _ _ _ => trivial).weaken (fun _ h => h) (fun _ _ h => h.1) fun _ _ h => h) fun r => ?_
      cases r with
      | error e => cases e <;> first | exact .ret _ | exact .raise _
      | ok st =>
          refine .seq (.change fun s h => ⟨h.encloses, h.changes⟩) fun _ => ?_
          refine .seq (Keeps.cond ?_ (.ret _)) fun _ => unlinkLast_stays henv hdir
          exact clearDirectory_stays henv hdir _ fun fd path' hfd => ih (Or.inl hfd)

end Run

/-- Whatever others rename, replace, add or remove while `deletePath` runs, with
    or without failing calls: if the path stands for something in `S` and no
    directory in `S` leads out of it, and the others leave that so, then the
    only entries that are removed are the path itself and those of directories
    in `S`.  If there is `fchmodat2` or a `/proc`, only what is in `S` is made
    accessible. -/
theorem deletePath_stays (env : Surroundings) (S : Nat → Prop) (depth parent : Nat)
    (path : NodePath) (s : Deleting) (hnew : s.changes = [])
    (hencloses : Encloses S parent (filename path) s.tree)
    (henv : Respectful env S parent (filename path)) :
    ∀ c ∈ (final (deletePath env depth (.ok parent) path) s).changes,
      c.isUnlink = true ∨ env.NeverFollows → c.Inside S parent (filename path) := by
  have hkeeps : Keeps (Stays env S parent (filename path)) (deletePath env depth (.ok parent) path) := by
    refine .seq (.change fun s h => ⟨h.encloses, h.changes⟩) fun _ => ?_
    refine .seq (.change fun s h => ⟨h.encloses, h.changes⟩) fun _ => ?_
    refine .seq (deletePathAt_stays henv depth (Or.inr ⟨rfl, rfl⟩)) fun _ => .look fun t => ?_
    cases t.ex with
    | none => exact .ret _
    | some e => exact .raise _
  have hstart : Stays env S parent (filename path) s := by
    refine ⟨hencloses, fun c hc => ?_⟩
    rw [hnew] at hc
    cases hc
  exact (hkeeps.final hstart).changes

namespace Sample

/-- `/x/d/f`, and a directory `/out` with a file `g`. -/
def deep : Tree where
  files
    | 0 => .directory [(ascii "x", 1), (ascii "out", 4)]
    | 1 => .directory [(ascii "d", 2)]
    | 2 => .directory [(ascii "f", 3)]
    | 3 => .object (.regular false (ascii "f"))
    | 4 => .directory [(ascii "g", 5)]
    | _ => .object (.regular false (ascii "g"))
  nlink _ := 1
  accessible _ := true

/-- A directory is moved out of the one that is being removed, and a link to
    where it has been moved to is put in its place. -/
def moveOut (t : Tree) : Tree :=
  let moved := Function.update t.files 4 (.directory [(ascii "g", 5), (ascii "d", 2)])
  let linked := Function.update moved 6 (.symlink (ascii "/out"))
  { t with files := Function.update linked 1 (.directory [(ascii "d", 6)]) }

/-- Somebody does this after the directory has been opened. -/
def moving : Surroundings where
  others n t := if n = 5 then moveOut t else t
  fails _ := none
  readdir _ t d := ((t.files d).entries.map Prod.fst, none)
  haveFchmodat2 := false
  haveProc := true
  follow _ _ _ := .ok 4

def startDeep : Deleting where
  tree := deep
  bytesFreed := 0
  ex := none
  time := 0
  changes := []

/-- What is below `/x`, and the link. -/
def below (i : Nat) : Prop := i = 1 ∨ i = 2 ∨ i = 3 ∨ i = 6

theorem moving_respectful : Respectful moving below 0 (ascii "x") := by
  intro n t h
  change Encloses below 0 (ascii "x") (if n = 5 then moveOut t else t)
  split
  · refine ⟨h.base, fun d hd m i hi => ?_⟩
    have hd4 : d ≠ 4 := by
      rintro rfl
      rcases hd with hd | hd | hd | hd <;> cases hd
    by_cases hd1 : d = 1
    · subst hd1
      change SortedMap.find? m [(ascii "d", 6)] = some i at hi
      rw [SortedMap.find?] at hi
      split at hi
      · cases hi
        exact Or.inr (Or.inr (Or.inr rfl))
      · cases hi
    · simp only [moveOut] at hi
      rw [Function.update_of_ne hd1] at hi
      by_cases hd6 : d = 6
      · subst hd6
        cases hi
      · rw [Function.update_of_ne hd6, Function.update_of_ne hd4] at hi
        exact h.closed d hd m i hi
  · exact h

theorem encloses_deep : Encloses below 0 (ascii "x") startDeep.tree := by
  refine ⟨fun i hi => ?_, fun d hd m i hi => ?_⟩
  · have hchild : (startDeep.tree.files 0).child (ascii "x") = some 1 := by decide
    rw [hchild] at hi
    cases hi
    exact Or.inl rfl
  · rcases hd with rfl | rfl | rfl | rfl
    · change SortedMap.find? m [(ascii "d", 2)] = some i at hi
      rw [SortedMap.find?] at hi
      split at hi
      · cases hi
        exact Or.inr (Or.inl rfl)
      · cases hi
    · change SortedMap.find? m [(ascii "f", 3)] = some i at hi
      rw [SortedMap.find?] at hi
      split at hi
      · cases hi
        exact Or.inr (Or.inr (Or.inl rfl))
      · cases hi
    · cases hi
    · cases hi

end Sample

/-- The directory that has been moved is emptied, but `/out` is left alone. -/
theorem deletePath_stays_moved :
    (∀ c ∈ (final (deletePath Sample.moving 3 (.ok 0) [ascii "x"]) Sample.startDeep).changes,
      c.Inside Sample.below 0 (ascii "x")) ∧
    (final (deletePath Sample.moving 3 (.ok 0) [ascii "x"]) Sample.startDeep).changes.length = 1 :=
  ⟨fun c hc => deletePath_stays Sample.moving Sample.below 3 0 [ascii "x"] Sample.startDeep rfl
    Sample.encloses_deep Sample.moving_respectful c hc (.inr (.inr rfl)), by decide +kernel⟩

end DeletePath
end NixStore
