/-
  NixStore.Util.CaseHack

  The case hack of `parseDump`, and `dumpPath` that undoes it
  (`libutil/archive.cc`).

  An entry that collides with an earlier one is restored under its name with
  `caseHackSuffix` and a number; a dump cuts every name at the first place
  where the suffix is found.  A name that is cut too early loses at least 14
  bytes (`unhackName_entryName`), so the dump is shorter than the archive was.
-/

import NixStore.Util.Restore
import NixStore.Lib.Emplace

namespace NixStore
namespace CaseHack

open SortedMap NarNode Wire

-- ============================================================================
-- Where the suffix is found
-- ============================================================================

/-- `use-case-hack` is on. -/
def hacking : ArchiveSettings := { useCaseHack := true }

/-- The name that a dump writes for a name on disk. -/
def unhackName (onDisk : Bytes) : Bytes := (cutAt caseHackSuffix onDisk).getD onDisk

/-- A copy of the suffix that begins before another one and reaches into it
    begins with all of it but its last byte. -/
theorem suffix_overlap {u d : Bytes} (hu : u ≠ [])
    (h : caseHackSuffix <+: u ++ (caseHackSuffix ++ d)) :
    caseHackSuffix <+: u ∨ u = caseHackSuffix.dropLast := by
  by_cases hlen : caseHackSuffix.length ≤ u.length
  · exact .inl (List.prefix_of_prefix_length_le h (List.prefix_append _ _) hlen)
  · right
    have hshort : u.length < caseHackSuffix.length := Nat.not_le.mp hlen
    have hpre : u <+: caseHackSuffix :=
      List.prefix_of_prefix_length_le (List.prefix_append _ _) h (Nat.le_of_lt hshort)
    have htake : u = caseHackSuffix.take u.length := List.prefix_iff_eq_take.mp hpre
    -- what is left of the first copy is the beginning of the second one
    have hrest : caseHackSuffix.drop u.length <+: caseHackSuffix := by
      have hdrop : caseHackSuffix.drop u.length <+: caseHackSuffix ++ d := by
        have hsplit : u ++ caseHackSuffix.drop u.length <+: u ++ (caseHackSuffix ++ d) := by
          rw [htake, List.length_take, Nat.min_eq_left (Nat.le_of_lt hshort),
            List.take_append_drop, ← htake]
          exact h
        exact (List.prefix_append_right_inj u).mp hsplit
      refine List.prefix_of_prefix_length_le hdrop (List.prefix_append _ _) ?_
      rw [List.length_drop]
      omega
    have hborder : ∀ n, n < 15 → 0 < n → caseHackSuffix.drop n <+: caseHackSuffix →
        caseHackSuffix.take n = caseHackSuffix.dropLast := by decide
    rw [htake]
    exact hborder u.length hshort (List.length_pos_iff.mpr hu) hrest

/-- A name that keeps its end when the suffix is put behind it. -/
def Separable (name : Bytes) : Prop :=
  ¬ caseHackSuffix <:+: name ∧ ¬ caseHackSuffix.dropLast <:+ name

theorem cutAt_of_prefix {pat s : Bytes} (h : pat <+: s) : cutAt pat s = some [] := by
  cases s with
  | nil => rw [cutAt, if_pos (List.isPrefixOf_iff_prefix.mpr h)]
  | cons b s => rw [cutAt, if_pos (List.isPrefixOf_iff_prefix.mpr h)]

theorem cutAt_cons {pat s : Bytes} {b : UInt8} (h : ¬ pat <+: b :: s) :
    cutAt pat (b :: s) = (cutAt pat s).map (b :: ·) := by
  rw [cutAt, if_neg fun hpre => h (List.isPrefixOf_iff_prefix.mp hpre)]

theorem separable_nil : Separable [] := by
  constructor <;> decide

/-- One more byte at the beginning keeps a name separable, unless a copy of the
    suffix begins there. -/
theorem separable_cons {b : UInt8} {name d : Bytes}
    (h : ¬ caseHackSuffix <+: b :: name ++ (caseHackSuffix ++ d)) :
    Separable (b :: name) ↔ Separable name := by
  have hinfix : ¬ caseHackSuffix <+: b :: name := fun hpre =>
    h (hpre.trans (List.prefix_append _ _))
  have hborder : b :: name ≠ caseHackSuffix.dropLast := by
    intro heq
    rw [heq] at h
    exact h ⟨caseHackSuffix.tail ++ d, rfl⟩
  rw [Separable, Separable, List.infix_cons_iff, List.suffix_cons_iff, or_iff_right hinfix,
    or_iff_right hborder.symm]

/-- A name with the suffix behind it is cut where the suffix was put, or at
    least 14 bytes earlier. -/
theorem cutAt_hacked (name d : Bytes) :
    ∃ t, cutAt caseHackSuffix (name ++ (caseHackSuffix ++ d)) = some t ∧
      (Separable name → t = name) ∧ (¬ Separable name → t.length + 14 ≤ name.length) := by
  induction name with
  | nil =>
      exact ⟨[], cutAt_of_prefix (List.prefix_append _ _), fun _ => rfl,
        fun h => absurd separable_nil h⟩
  | cons b name ih =>
      by_cases hpre : caseHackSuffix <+: b :: name ++ (caseHackSuffix ++ d)
      · -- the suffix is found at the first byte
        have hbad : ¬ Separable (b :: name) ∧ 14 ≤ (b :: name).length := by
          rcases suffix_overlap (List.cons_ne_nil b name) hpre with hin | hborder
          · have hlen : 15 ≤ (b :: name).length := hin.length_le
            exact ⟨fun hsep => hsep.1 hin.isInfix, by omega⟩
          · rw [hborder]
            exact ⟨fun hsep => hsep.2 List.suffix_rfl, by decide⟩
        exact ⟨[], cutAt_of_prefix hpre, fun hsep => absurd hsep hbad.1,
          fun _ => by simpa using hbad.2⟩
      · obtain ⟨t, hcut, hsep, hcutoff⟩ := ih
        refine ⟨b :: t, ?_, ?_, ?_⟩
        · have hcons : cutAt caseHackSuffix (b :: (name ++ (caseHackSuffix ++ d))) = _ :=
            cutAt_cons hpre
          rw [List.cons_append, hcons, hcut]
          rfl
        · rw [separable_cons hpre]
          exact fun h => congrArg (b :: ·) (hsep h)
        · rw [separable_cons hpre]
          intro h
          have hle := hcutoff h
          rw [List.length_cons, List.length_cons]
          omega

/-- A name without the suffix is left alone; another loses at least the
    suffix. -/
theorem cutAt_name (name : Bytes) :
    (¬ caseHackSuffix <:+: name ∧ cutAt caseHackSuffix name = none) ∨
    ∃ t, caseHackSuffix <:+: name ∧ cutAt caseHackSuffix name = some t ∧
      t.length + 15 ≤ name.length := by
  induction name with
  | nil =>
      left
      decide
  | cons b name ih =>
      by_cases hpre : caseHackSuffix <+: b :: name
      · right
        have hlen : 15 ≤ (b :: name).length := hpre.length_le
        exact ⟨[], hpre.isInfix, cutAt_of_prefix hpre, by simpa using hlen⟩
      · rw [List.infix_cons_iff, or_iff_right hpre, cutAt_cons hpre]
        rcases ih with ⟨hnot, hcut⟩ | ⟨t, hin, hcut, hlen⟩
        · exact .inl ⟨hnot, by rw [hcut]; rfl⟩
        · right
          refine ⟨b :: t, hin, by rw [hcut]; rfl, ?_⟩
          rw [List.length_cons, List.length_cons]
          omega

-- ============================================================================
-- The names of a directory
-- ============================================================================

theorem caseInsensitiveEq_trans {a b c : Bytes} (hab : caseInsensitiveEq a b = true)
    (hbc : caseInsensitiveEq b c = true) : caseInsensitiveEq a c = true := by
  simp only [caseInsensitiveEq, beq_iff_eq] at hab hbc ⊢
  exact hab.trans hbc

/-- A name collides with one of the names before it. -/
def Collides (before : List Bytes) (name : Bytes) : Prop :=
  ∃ n ∈ before, caseInsensitiveEq n name = true

/-- `names` has a name of every kind among the names before, and no other. -/
def Tracks (names : List (Bytes × Nat)) (before : List Bytes) : Prop :=
  ∀ n, (∃ e ∈ names, caseInsensitiveEq e.1 n = true) ↔ Collides before n

theorem tracks_nil : Tracks [] [] := fun n => by simp [Collides]

theorem collides_append {before : List Bytes} {name n : Bytes} :
    Collides (before ++ [name]) n ↔ Collides before n ∨ caseInsensitiveEq name n = true := by
  simp [Collides, or_and_right, exists_or]

theorem adjust_keys {names : List (Bytes × Nat)} (k : Bytes) (g : Nat → Nat) :
    (adjust k g names).map (·.1) = names.map (·.1) := by
  induction names with
  | nil => rfl
  | cons e names ih =>
      rw [adjust]
      split
      · rfl
      · rw [List.map_cons, ih, List.map_cons]

/-- What the case hack does with a name: it keeps the name or puts the suffix
    and a number behind it. -/
theorem entryName_spec {names names' : List (Bytes × Nat)} {before : List Bytes}
    {name onDisk : Bytes} (htracks : Tracks names before)
    (h : entryName hacking names name = .ok (onDisk, names')) :
    Tracks names' (before ++ [name]) ∧
      ((¬ Collides before name ∧ onDisk = name) ∨
        (Collides before name ∧ ∃ d, onDisk = name ++ (caseHackSuffix ++ d))) := by
  have hhack : caseHack names name = .ok (onDisk, names') := h
  rw [caseHack] at hhack
  split at hhack
  · next first count hfind =>
    have hcollides : Collides before name := by
      rw [← htracks]
      exact ⟨_, List.mem_of_find?_eq_some hfind, by simpa using List.find?_some hfind⟩
    dsimp only at hhack
    split at hhack
    · cases hhack
    · cases hhack
      refine ⟨fun n => ?_, .inr ⟨hcollides, _, List.append_assoc _ _ _⟩⟩
      -- the names are the ones before, and a name of the same kind is among them
      have hkeys : (∃ e ∈ adjust first (· + 1) names, caseInsensitiveEq e.1 n = true) ↔
          ∃ e ∈ names, caseInsensitiveEq e.1 n = true := by
        have hmem : ∀ l : List (Bytes × Nat), (∃ e ∈ l, caseInsensitiveEq e.1 n = true) ↔
            ∃ k ∈ l.map (·.1), caseInsensitiveEq k n = true := by simp
        rw [hmem, adjust_keys, ← hmem]
      rw [hkeys, htracks, collides_append]
      refine (or_iff_left_of_imp fun hname => ?_).symm
      obtain ⟨m, hm, hsame⟩ := hcollides
      exact ⟨m, hm, caseInsensitiveEq_trans hsame hname⟩
  · next hfind =>
    cases hhack
    have hnot : ¬ Collides before name := by
      rw [← htracks]
      rintro ⟨e, he, hsame⟩
      exact absurd hsame (List.find?_eq_none.mp hfind e he)
    refine ⟨fun n => ?_, .inl ⟨hnot, rfl⟩⟩
    rw [collides_append, ← htracks n]
    simp [or_and_right, exists_or]

/-- A name that is written again as it was: it does not have the suffix, nor,
    if it is renamed, all of it but its last byte at its end. -/
def SafeName (before : List Bytes) (name : Bytes) : Prop :=
  ¬ caseHackSuffix <:+: name ∧ (Collides before name → ¬ caseHackSuffix.dropLast <:+ name)

/-- A safe name comes back, and another one comes back shorter. -/
theorem unhackName_entryName {names names' : List (Bytes × Nat)} {before : List Bytes}
    {name onDisk : Bytes} (htracks : Tracks names before)
    (h : entryName hacking names name = .ok (onDisk, names')) :
    (SafeName before name → unhackName onDisk = name) ∧
      (¬ SafeName before name → (unhackName onDisk).length + 14 ≤ name.length) := by
  rcases (entryName_spec htracks h).2 with ⟨hnot, rfl⟩ | ⟨hcollides, d, rfl⟩
  · have hsafe : SafeName before onDisk ↔ ¬ caseHackSuffix <:+: onDisk :=
      and_iff_left fun hc => absurd hc hnot
    rw [hsafe, unhackName]
    rcases cutAt_name onDisk with ⟨hsep, hcut⟩ | ⟨t, hin, hcut, hlen⟩
    · rw [hcut]
      exact ⟨fun _ => rfl, fun hbad => absurd hsep hbad⟩
    · rw [hcut]
      refine ⟨fun hsep => absurd hin hsep, fun _ => ?_⟩
      show t.length + 14 ≤ onDisk.length
      omega
  · have hsafe : SafeName before name ↔ Separable name :=
      and_congr_right fun _ => ⟨fun hend => hend hcollides, fun hend _ => hend⟩
    obtain ⟨t, hcut, hsep, hcutoff⟩ := cutAt_hacked name d
    rw [hsafe, unhackName, hcut]
    exact ⟨hsep, hcutoff⟩

-- ============================================================================
-- The tree that is restored
-- ============================================================================

mutual

/-- The tree of a node, with the names the case hack gives its entries. -/
def restored : NarNode → Option File
  | .regular executable contents _ => some (.regular executable contents)
  | .directory entries =>
      ((restoredEntries [] entries).bind (emplaceAll · [])).map .directory
  | .symlink target => some (.symlink target)

/-- The entries of a directory, in the order of the archive. -/
def restoredEntries : List (Bytes × Nat) → List (Bytes × NarNode) → Option (List (Bytes × File))
  | _, [] => some []
  | names, (name, x) :: rest =>
      match entryName hacking names name with
      | .error _ => none
      | .ok (onDisk, names') =>
          match restored x, restoredEntries names' rest with
          | some f, some l => some ((onDisk, f) :: l)
          | _, _ => none

end

/-- Creating a node at the root, or under a new name of a directory that is
    there.  It may fail, and does if the name is taken. -/
def Creates (create : NodePath → Option File → Except Error (Option File)) (new : File) : Prop :=
  (∀ st', create [] none = .ok st' → st' = some new) ∧
  ∀ {p : NodePath} {T : File} {es : List (Bytes × File)} {name : Bytes} {st' : Option File},
    (File.at? p T).isSome → create (p ++ [name]) (some (File.put p (.directory es) T)) = .ok st' →
    ∃ es', emplace name new es = some es' ∧ st' = some (File.put p (.directory es') T)

/-- A sink that puts what it is given into a tree, or fails. -/
structure TreeSink (sink : FileSystemObjectSink (Option File)) : Prop where
  reads : sink.skipContents = false
  preallocateContents : ∀ {p n st st'}, sink.preallocateContents p n st = .ok st' → st' = st
  isExecutable : ∀ {p T st'}, sink.isExecutable p (some T) = .ok st' →
    st' = some (File.modifyAt File.setExecutable p T)
  write : ∀ {p c T st'}, sink.write p c (some T) = .ok st' →
    st' = some (File.modifyAt (File.append c) p T)
  finishRegularFile : ∀ {p st st'}, sink.finishRegularFile p st = .ok st' → st' = st
  createDirectory : Creates sink.createDirectory (.directory [])
  createRegularFile : Creates sink.createRegularFile (.regular false [])
  createSymlink : ∀ t, Creates (fun p => sink.createSymlink p t) (.symlink t)

theorem restoreCreate_creates (what : String) (new : File) :
    Creates (fun p => restoreCreate what p new) new := by
  refine ⟨fun st' h => ?_, ?_⟩
  · cases h
    rfl
  · intro p T es name st' hp h
    have hparent : File.at? p (File.put p (.directory es) T) = some (.directory es) :=
      File.at?_put _ hp
    dsimp only at h
    rw [restoreCreate] at h
    split at h
    · cases h
    · next hmissing =>
      rw [List.dropLast_concat, hparent] at h
      dsimp only at h
      -- the name is not in the directory, so it is put there
      have hfind : find? name es = none := by
        rw [File.at?_append, hparent] at hmissing
        cases hfind : find? name es with
        | none => rfl
        | some f => simp [File.at?, hfind] at hmissing
      obtain ⟨es', hes'⟩ : ∃ es', emplace name new es = some es' := by
        cases hemplace : emplace name new es with
        | some es' => exact ⟨es', rfl⟩
        | none =>
            have htaken := emplace_eq_none hemplace
            rw [hfind] at htaken
            cases htaken
      rw [File.openCreate_append [name] [] hparent] at h
      simp only [File.openCreate, hfind, File.mkPath, hes', Option.getD_some, Except.map] at h
      cases h
      refine ⟨es', hes', ?_⟩
      rw [← File.put, File.put, File.modifyAt_put]

theorem restoreSink_tree : TreeSink restoreSink where
  reads := rfl
  preallocateContents h := by cases h; rfl
  isExecutable h := by cases h; rfl
  write h := by cases h; rfl
  finishRegularFile h := by cases h; rfl
  createDirectory := restoreCreate_creates "directory" (.directory [])
  createRegularFile := restoreCreate_creates "file" (.regular false [])
  createSymlink t := restoreCreate_creates "symlink" (.symlink t)

section Feeding

variable {sink : FileSystemObjectSink (Option File)}

/-- What is written to a file that is there is put behind its contents. -/
theorem drainInto_tree (hs : TreeSink sink) {p : NodePath} {T f : File} {rounds : Nat}
    {c left : Bytes} {st' : Option File} (hrounds : c.length ≤ rounds)
    (h : drainInto (sink.write p) rounds c.length c (some (File.put p f T)) = .ok (left, st')) :
    st' = some (File.put p (f.append c) T) := by
  induction rounds generalizing c f with
  | zero =>
      obtain rfl : c = [] := List.length_eq_zero_iff.mp (by omega)
      cases h
      rw [append_nil]
  | succ rounds ih =>
      cases c with
      | nil =>
          cases h
          rw [append_nil]
      | cons b bs =>
          simp only [List.length_cons, drainInto, bind_eq_ok] at h
          obtain ⟨-, -, st₁, hwrite, hrest⟩ := h
          rw [hs.write hwrite, File.modifyAt_put] at hrest
          rw [← List.length_cons (a := b), ← List.length_drop] at hrest
          have hdrop := ih (by
            rw [List.length_drop, List.length_cons] at *
            omega) hrest
          rwa [append_append, List.take_append_drop] at hdrop

theorem feedBody_tree (hs : TreeSink sink) {p : NodePath} {T f : File} {c : Bytes}
    {st' : Option File} (h : feedBody sink p c (some (File.put p f T)) = .ok st') :
    st' = some (File.put p (f.append c) T) := by
  simp only [feedBody, feedContents, bind_eq_ok, hs.reads] at h
  obtain ⟨st₁, hpre, h⟩ := h
  rw [hs.preallocateContents hpre] at h
  cases hdrain : drainInto (sink.write p) c.length c.length c (some (File.put p f T)) with
  | error e =>
      rw [hdrain] at h
      cases h
  | ok r =>
      obtain ⟨left, st₂⟩ := r
      rw [hdrain] at h
      cases h
      exact drainInto_tree hs (Nat.le_refl _) hdrain

/-- What follows the creation of a regular file fills it. -/
theorem feedRegular_tree (hs : TreeSink sink) {p : NodePath} {T : File} {e : Bool} {c : Bytes}
    {st' : Option File}
    (h : (feedExecutable sink p e (some (File.put p (.regular false []) T)) >>=
      fun st => feedBody sink p c st >>= sink.finishRegularFile p) = .ok st') :
    st' = some (File.put p (.regular e c) T) := by
  simp only [bind_eq_ok] at h
  obtain ⟨st₁, hexec, st₂, hbody, hfinish⟩ := h
  have hst₁ : st₁ = some (File.put p (.regular e []) T) := by
    cases e with
    | false =>
        cases hexec
        rfl
    | true =>
        rw [hs.isExecutable hexec, File.modifyAt_put]
        rfl
  rw [hst₁] at hbody
  rw [hs.finishRegularFile hfinish, feedBody_tree hs hbody]
  rfl

/-- A child that was put into a directory and is then replaced. -/
theorem put_emplaced {p : NodePath} {T f : File} {es es' : List (Bytes × File)} {name : Bytes}
    (h : emplace name f es = some es') (f' : File) :
    ∃ es'', emplace name f' es = some es'' ∧
      File.put (p ++ [name]) f' (File.put p (.directory es') T) =
        File.put p (.directory es'') T := by
  refine ⟨adjust name (fun _ => f') es', emplace_adjust (fun _ => f') h, ?_⟩
  rw [File.put, File.modifyAt_append, File.modifyAt_put]
  rfl

theorem put_emplaced_self {p : NodePath} {T f : File} {es es' : List (Bytes × File)} {name : Bytes}
    (h : emplace name f es = some es') :
    File.put p (.directory es') T =
      File.put (p ++ [name]) f (File.put p (.directory es') T) := by
  obtain ⟨es'', hes'', hput⟩ := put_emplaced (p := p) (T := T) h f
  rw [h] at hes''
  cases hes''
  exact hput.symm

theorem at?_emplaced {p : NodePath} {T f : File} {es es' : List (Bytes × File)} {name : Bytes}
    (hp : (File.at? p T).isSome) (h : emplace name f es = some es') :
    (File.at? (p ++ [name]) (File.put p (.directory es') T)).isSome := by
  rw [File.at?_append, File.at?_put _ hp]
  simp [File.at?, find?_emplace h]

mutual

/-- A node that is fed under a name is put there as it is restored. -/
theorem feed_tree (hs : TreeSink sink) (x : NarNode) {T : File} {p : NodePath}
    {es : List (Bytes × File)} {name : Bytes} {st' : Option File} (hp : (File.at? p T).isSome)
    (h : feed sink hacking (p ++ [name]) x (some (File.put p (.directory es) T)) = .ok st') :
    ∃ f es', restored x = some f ∧ emplace name f es = some es' ∧
      st' = some (File.put p (.directory es') T) := by
  match x with
  | .regular e c pad =>
      rw [feed, bind_eq_ok] at h
      obtain ⟨st₁, hcreate, h⟩ := h
      obtain ⟨es', hes', rfl⟩ := hs.createRegularFile.2 hp hcreate
      rw [put_emplaced_self hes'] at h
      obtain ⟨es'', hes'', hput⟩ := put_emplaced (p := p) (T := T) hes' (.regular e c)
      exact ⟨_, es'', rfl, hes'', by rw [feedRegular_tree hs h, hput]⟩
  | .symlink t =>
      obtain ⟨es', hes', rfl⟩ := (hs.createSymlink t).2 hp h
      exact ⟨_, es', rfl, hes', rfl⟩
  | .directory entries =>
      rw [feed, bind_eq_ok] at h
      obtain ⟨st₁, hcreate, h⟩ := h
      obtain ⟨es', hes', rfl⟩ := hs.createDirectory.2 hp hcreate
      have hat := at?_emplaced hp hes'
      rw [put_emplaced_self hes'] at h
      obtain ⟨l, acc', hl, hacc', rfl⟩ := feedEntries_tree hs entries hat h
      obtain ⟨es'', hes'', hput⟩ := put_emplaced (p := p) (T := T) hes' (.directory acc')
      exact ⟨_, es'', by rw [restored, hl, Option.bind_some, hacc']; rfl, hes'', by rw [hput]⟩

/-- The entries of a directory, each put where its name belongs. -/
theorem feedEntries_tree (hs : TreeSink sink) (entries : List (Bytes × NarNode)) {T : File}
    {p : NodePath} {names : List (Bytes × Nat)} {acc : List (Bytes × File)} {st' : Option File}
    (hp : (File.at? p T).isSome)
    (h : feedEntries sink hacking p names entries (some (File.put p (.directory acc) T)) =
      .ok st') :
    ∃ l acc', restoredEntries names entries = some l ∧ emplaceAll l acc = some acc' ∧
      st' = some (File.put p (.directory acc') T) := by
  match entries with
  | [] =>
      cases h
      exact ⟨[], acc, rfl, rfl, rfl⟩
  | (name, x) :: rest =>
      simp only [feedEntries, bind_eq_ok, Prod.exists] at h
      obtain ⟨onDisk, names', hentry, st₁, hfeed, h⟩ := h
      obtain ⟨f, acc₁, hf, hacc₁, rfl⟩ := feed_tree hs x hp hfeed
      obtain ⟨l, acc', hl, hacc', rfl⟩ := feedEntries_tree hs rest hp h
      refine ⟨(onDisk, f) :: l, acc', ?_, ?_, rfl⟩
      · rw [restoredEntries, hentry]
        simp only [hf, hl]
      · rw [emplaceAll, hacc₁]
        exact hacc'

end

/-- A tree is restored at a place where nothing is. -/
theorem feed_root (hs : TreeSink sink) {x : NarNode} {st' : Option File}
    (h : feed sink hacking [] x none = .ok st') : ∃ f, restored x = some f ∧ st' = some f := by
  cases x with
  | regular e c pad =>
      rw [feed, bind_eq_ok] at h
      obtain ⟨st₁, hcreate, h⟩ := h
      rw [hs.createRegularFile.1 _ hcreate] at h
      exact ⟨_, rfl, feedRegular_tree (p := []) (T := .regular false []) hs h⟩
  | symlink t => exact ⟨_, rfl, (hs.createSymlink t).1 _ h⟩
  | directory entries =>
      rw [feed, bind_eq_ok] at h
      obtain ⟨st₁, hcreate, h⟩ := h
      rw [hs.createDirectory.1 _ hcreate] at h
      obtain ⟨l, acc', hl, hacc', rfl⟩ :=
        @feedEntries_tree _ hs entries (.directory []) [] [] [] _ rfl h
      exact ⟨.directory acc', by rw [restored, hl, Option.bind_some, hacc']; rfl, rfl⟩

end Feeding

-- ============================================================================
-- The dump of that tree
-- ============================================================================

mutual

/-- The case hack renames entries so that a dump finds their names again. -/
def Unambiguous : NarNode → Prop
  | .regular _ _ _ => True
  | .directory entries => UnambiguousEntries [] entries
  | .symlink _ => True

/-- The same for the entries that come behind some names. -/
def UnambiguousEntries : List Bytes → List (Bytes × NarNode) → Prop
  | _, [] => True
  | before, (name, x) :: rest =>
      SafeName before name ∧ Unambiguous x ∧ UnambiguousEntries (before ++ [name]) rest

end

/-- An entry on disk as it comes into `unhacked`. -/
def unhackedEntry (path : NodePath) (depth : Nat) (e : Bytes × File) :
    Bytes × Bytes × Except Error Bytes :=
  (unhackName e.1, e.1, dump hacking defaultPathFilter e.2 (path ++ [e.1]) (depth + 1))

theorem unhack_eq_ok {β : Type} {path : NodePath} {nodes : List (Bytes × β)}
    {acc out : List (Bytes × Bytes × β)} :
    unhack hacking path nodes acc = .ok out ↔
      emplaceAll (nodes.map fun e => (unhackName e.1, e.1, e.2)) acc = some out := by
  induction nodes generalizing acc with
  | nil => simp [unhack, emplaceAll]
  | cons e nodes ih =>
      obtain ⟨onDisk, body⟩ := e
      rw [List.map_cons, emplaceAll, unhack, if_pos (show hacking.useCaseHack = true from rfl)]
      dsimp only
      rw [show (cutAt caseHackSuffix onDisk).getD onDisk = unhackName onDisk from rfl]
      cases emplace (unhackName onDisk) (onDisk, body) acc with
      | none => exact iff_of_false (fun h => by cases h) (fun h => by cases h)
      | some acc' => exact ih

theorem dumpNodes_eq_map (entries : List (Bytes × File)) (path : NodePath) (depth : Nat) :
    (dumpNodes hacking defaultPathFilter entries path depth).map
        (fun e => (unhackName e.1, e.1, e.2)) =
      entries.map (unhackedEntry path depth) := by
  induction entries with
  | nil => rfl
  | cons e entries ih =>
      obtain ⟨name, f⟩ := e
      rw [dumpNodes, List.map_cons, List.map_cons, ih]
      rfl

/-- The dump of a directory, from its entries in the order of their names in
    the archive. -/
theorem dump_directory {entries : List (Bytes × File)} {path : NodePath} {depth : Nat} {b : Bytes} :
    dump hacking defaultPathFilter (.directory entries) path depth = .ok b ↔
      depth < narMaxDepth ∧ ∃ unhacked body,
        emplaceAll (entries.map (unhackedEntry path depth)) [] = some unhacked ∧
        dumpEntries defaultPathFilter path unhacked = .ok body ∧
        b = tag "(" ++ tag "type" ++ tag "directory" ++ body ++ tag ")" := by
  simp only [dump, bind_eq_ok, throwIf_eq_ok, unhack_eq_ok, dumpNodes_eq_map, pure_eq_ok,
    Except.ok.injEq, ge_iff_le, not_le]
  constructor
  · rintro ⟨-, hdepth, unhacked, hunhacked, body, hbody, rfl⟩
    exact ⟨hdepth, unhacked, body, hunhacked, hbody, rfl⟩
  · rintro ⟨hdepth, unhacked, body, hunhacked, hbody, rfl⟩
    exact ⟨(), hdepth, unhacked, hunhacked, body, hbody, rfl⟩

/-- The bytes of an entry. -/
def entryBytes (name node : Bytes) : Bytes :=
  tag "entry" ++ tag "(" ++ tag "name" ++ writeString name ++ tag "node" ++ node ++ tag ")"

theorem encodeEntries_cons (name : Bytes) (x : NarNode) (rest : List (Bytes × NarNode)) :
    encodeEntries ((name, x) :: rest) = entryBytes name x.encode ++ encodeEntries rest := by
  simp only [encodeEntries, entryBytes, List.append_assoc]

/-- How many bytes an entry of `unhacked` is dumped as. -/
def entrySize (e : Bytes × Bytes × Except Error Bytes) : Nat :=
  match e.2.2 with
  | .ok node => (entryBytes e.1 node).length
  | .error _ => 0

theorem dumpEntries_length {path : NodePath} {l : List (Bytes × Bytes × Except Error Bytes)}
    {body : Bytes} (h : dumpEntries defaultPathFilter path l = .ok body) :
    body.length = (l.map entrySize).sum ∧ ∀ e ∈ l, ∃ node, e.2.2 = .ok node := by
  induction l generalizing body with
  | nil =>
      cases h
      exact ⟨rfl, fun e he => absurd he List.not_mem_nil⟩
  | cons e l ih =>
      obtain ⟨name, onDisk, node⟩ := e
      simp only [dumpEntries, defaultPathFilter, if_true, bind_eq_ok, pure_eq_ok,
        Except.ok.injEq] at h
      obtain ⟨node', rfl, tail, htail, rfl⟩ := h
      obtain ⟨hlen, hok⟩ := ih htail
      refine ⟨?_, List.forall_mem_cons.mpr ⟨⟨node', rfl⟩, hok⟩⟩
      rw [List.map_cons, List.sum_cons, ← hlen]
      exact List.length_append

theorem entryBytes_length (name node : Bytes) :
    (entryBytes name node).length =
      (entryBytes [] []).length + (name.length + padLen name.length) + node.length := by
  simp only [entryBytes, writeString, writePadding_length, writeNum_length, List.length_append,
    List.length_nil, padLen]
  omega

/-- An entry whose name comes back shorter takes fewer bytes. -/
theorem entryBytes_lt {name name' node node' : Bytes} (hname : name'.length + 14 ≤ name.length)
    (hnode : node'.length ≤ node.length) :
    (entryBytes name' node').length < (entryBytes name node).length := by
  rw [entryBytes_length name', entryBytes_length name, padLen, padLen]
  omega

mutual

/-- The dump is no longer than the archive was, and shorter if a name did not
    come back. -/
theorem dump_length (x : NarNode) {levels depth : Nat} {f : File} {path : NodePath} {b : Bytes}
    (hlegal : x.Legal levels) (hf : restored x = some f)
    (hb : dump hacking defaultPathFilter f path depth = .ok b) :
    b.length ≤ x.encode.length ∧ (b.length = x.encode.length → Unambiguous x) := by
  match x with
  | .regular e c pad =>
      cases hf
      simp only [dump, bind_eq_ok, pure_eq_ok, Except.ok.injEq] at hb
      obtain ⟨-, -, rfl⟩ := hb
      refine ⟨Nat.le_of_eq ?_, fun _ => trivial⟩
      simp only [encode, List.length_append, writePadding_length, hlegal.2.2]
      omega
  | .symlink t =>
      cases hf
      simp only [dump, bind_eq_ok, pure_eq_ok, Except.ok.injEq] at hb
      obtain ⟨-, -, rfl⟩ := hb
      refine ⟨Nat.le_of_eq ?_, fun _ => trivial⟩
      simp only [encode, List.append_assoc]
  | .directory entries =>
      obtain ⟨acc, hacc, rfl⟩ := Option.map_eq_some_iff.mp hf
      obtain ⟨l, hl, hacc⟩ := Option.bind_eq_some_iff.mp hacc
      obtain ⟨-, unhacked, body, hunhacked, hbody, rfl⟩ := dump_directory.mp hb
      -- what is dumped are the entries, in some order
      have hperm : unhacked.Perm (l.map (unhackedEntry path depth)) := by
        have h := emplaceAll_perm hunhacked
        have h' := emplaceAll_perm hacc
        rw [List.append_nil] at h h'
        exact h.trans (h'.map _)
      obtain ⟨hlen, hok⟩ := dumpEntries_length hbody
      rw [(hperm.map entrySize).sum_nat] at hlen
      have hnodes : ∀ e ∈ l, ∃ node,
          dump hacking defaultPathFilter e.2 (path ++ [e.1]) (depth + 1) = .ok node :=
        fun e he => hok _ (hperm.mem_iff.mpr (List.mem_map_of_mem he))
      obtain ⟨hle, heq⟩ := entries_length entries hlegal.2 tracks_nil hl hnodes
      rw [← hlen] at hle heq
      simp only [encode, List.length_append]
      exact ⟨by omega, fun h => heq (by omega)⟩

/-- The same for the entries of a directory. -/
theorem entries_length (entries : List (Bytes × NarNode)) {levels depth : Nat} {prev : Bytes}
    {names : List (Bytes × Nat)} {before : List Bytes} {l : List (Bytes × File)} {path : NodePath}
    (hlegal : LegalEntries levels prev entries) (htracks : Tracks names before)
    (hl : restoredEntries names entries = some l)
    (hok : ∀ e ∈ l, ∃ node,
      dump hacking defaultPathFilter e.2 (path ++ [e.1]) (depth + 1) = .ok node) :
    ((l.map (unhackedEntry path depth)).map entrySize).sum ≤ (encodeEntries entries).length ∧
      (((l.map (unhackedEntry path depth)).map entrySize).sum = (encodeEntries entries).length →
        UnambiguousEntries before entries) := by
  match entries with
  | [] =>
      cases hl
      exact ⟨Nat.le_refl _, fun _ => trivial⟩
  | (name, x) :: rest =>
      rw [restoredEntries] at hl
      split at hl
      · cases hl
      · next onDisk names' hentry =>
        split at hl
        · next f l' hf hl' =>
          cases hl
          obtain ⟨-, -, -, hx, hrest⟩ := hlegal
          obtain ⟨node, hnode⟩ := hok _ List.mem_cons_self
          obtain ⟨hle, heq⟩ := dump_length x hx hf hnode
          obtain ⟨hles, heqs⟩ := entries_length rest hrest (entryName_spec htracks hentry).1 hl'
            fun e he => hok e (List.mem_cons_of_mem _ he)
          obtain ⟨hsafe, hshort⟩ := unhackName_entryName htracks hentry
          have hsize : entrySize (unhackedEntry path depth (onDisk, f)) =
              (entryBytes (unhackName onDisk) node).length := by
            rw [unhackedEntry, hnode]
            rfl
          rw [encodeEntries_cons, List.length_append, List.map_cons, List.map_cons, List.sum_cons,
            hsize]
          by_cases hname : SafeName before name
          · rw [hsafe hname, entryBytes_length name node, entryBytes_length name x.encode]
            refine ⟨by omega, fun h => ?_⟩
            exact ⟨hname, heq (by omega), heqs (by omega)⟩
          · have hlt := entryBytes_lt (hshort hname) hle
            exact ⟨by omega, fun h => absurd h (by omega)⟩
        · cases hl

end

theorem LegalEntries.ascending {levels : Nat} {prev : Bytes} {entries : List (Bytes × NarNode)}
    (h : LegalEntries levels prev entries) :
    (entries.map (·.1)).Pairwise (· < ·) ∧ ∀ n ∈ entries.map (·.1), prev < n := by
  induction entries generalizing prev with
  | nil => exact ⟨List.Pairwise.nil, fun n hn => absurd hn List.not_mem_nil⟩
  | cons e entries ih =>
      obtain ⟨name, x⟩ := e
      obtain ⟨-, -, hprev, -, hrest⟩ := h
      obtain ⟨hasc, hlt⟩ := ih hrest
      refine ⟨List.pairwise_cons.mpr ⟨hlt, hasc⟩, ?_⟩
      exact List.forall_mem_cons.mpr ⟨hprev, fun n hn => List.lt_trans hprev (hlt n hn)⟩

mutual

/-- When every name comes back, the dump is the archive. -/
theorem dump_of_unambiguous (x : NarNode) {depth : Nat} {f : File} {path : NodePath}
    (hlegal : x.Legal (narMaxDepth - depth)) (hpads : x.PadsZero) (hx : Unambiguous x)
    (hf : restored x = some f) :
    dump hacking defaultPathFilter f path depth = .ok x.encode := by
  match x with
  | .regular e c pad =>
      cases hf
      have hdepth : ¬ depth ≥ narMaxDepth := by have := hlegal.1; omega
      have hpad : pad = writePadding c.length := hpads
      simp only [dump, throwIf, hdepth, if_false, ok_bind, pure_eq_ok, encode, List.append_assoc,
        hpad]
  | .symlink t =>
      cases hf
      have hdepth : ¬ depth ≥ narMaxDepth := by have := hlegal.1; omega
      simp only [dump, throwIf, hdepth, if_false, ok_bind, pure_eq_ok, encode, List.append_assoc]
  | .directory entries =>
      obtain ⟨acc, hacc, rfl⟩ := Option.map_eq_some_iff.mp hf
      obtain ⟨l, hl, hacc⟩ := Option.bind_eq_some_iff.mp hacc
      obtain ⟨hpos, hes⟩ := hlegal
      rw [Nat.sub_sub] at hes
      obtain ⟨hnames, hbody⟩ :=
        @entries_of_unambiguous entries depth [] [] [] l path hes hpads tracks_nil hx hl
      -- the entries are sorted by their names in the archive again
      have hperm : (acc.map (unhackedEntry path depth)).Perm (l.map (unhackedEntry path depth)) := by
        have h := emplaceAll_perm hacc
        rw [List.append_nil] at h
        exact h.map _
      have hasc : Ascending (l.map (unhackedEntry path depth)) := by
        rw [ascending_iff_names, hnames]
        exact (LegalEntries.ascending hes).1
      rw [dump_directory]
      refine ⟨by omega, _, _, emplaceAll_of_perm hasc hperm, hbody, ?_⟩
      simp only [encode, List.append_assoc]

/-- The same for the entries of a directory, in the order of the archive. -/
theorem entries_of_unambiguous (entries : List (Bytes × NarNode)) {depth : Nat} {prev : Bytes}
    {names : List (Bytes × Nat)} {before : List Bytes} {l : List (Bytes × File)} {path : NodePath}
    (hlegal : LegalEntries (narMaxDepth - (depth + 1)) prev entries)
    (hpads : AllFilesEntries (fun contents pad => pad = writePadding contents.length) entries)
    (htracks : Tracks names before) (hx : UnambiguousEntries before entries)
    (hl : restoredEntries names entries = some l) :
    (l.map (unhackedEntry path depth)).map (·.1) = entries.map (·.1) ∧
      dumpEntries defaultPathFilter path (l.map (unhackedEntry path depth)) =
        .ok (encodeEntries entries) := by
  match entries with
  | [] =>
      cases hl
      exact ⟨rfl, rfl⟩
  | (name, x) :: rest =>
      rw [restoredEntries] at hl
      split at hl
      · cases hl
      · next onDisk names' hentry =>
        split at hl
        · next f l' hf hl' =>
          cases hl
          obtain ⟨-, -, -, hlegalx, hrest⟩ := hlegal
          obtain ⟨hsafe, hunamb, hunambs⟩ := hx
          have hname := (unhackName_entryName htracks hentry).1 hsafe
          have hnode := @dump_of_unambiguous x _ f (path ++ [onDisk]) hlegalx hpads.1 hunamb hf
          obtain ⟨hnames, hbody⟩ := @entries_of_unambiguous rest depth name names' _ l' path hrest
            hpads.2 (entryName_spec htracks hentry).1 hunambs hl'
          refine ⟨?_, ?_⟩
          · rw [List.map_cons, List.map_cons, List.map_cons, hnames]
            exact congrArg (· :: _) hname
          · rw [List.map_cons, unhackedEntry, hnode, hname, encodeEntries_cons]
            simp only [dumpEntries, defaultPathFilter, if_true, ok_bind, hbody, pure_eq_ok]
            rfl
        · cases hl

end

theorem dumpPath_eq_ok {f : File} {b : Bytes} :
    dumpPath hacking defaultPathFilter f = .ok (writeString narVersionMagic1 ++ b) ↔
      dump hacking defaultPathFilter f [] 0 = .ok b := by
  simp only [dumpPath, bind_eq_ok, pure_eq_ok, Except.ok.injEq, List.append_cancel_left_eq]
  constructor
  · rintro ⟨b', hb, rfl⟩
    exact hb
  · intro hb
    exact ⟨b, hb, rfl⟩

/-- Archives that are restored with the case hack: the tree is dumped as the
    bytes that were read exactly if the case hack kept its names apart. -/
theorem dumpPath_restored_iff {sink : FileSystemObjectSink (Option File)} (hs : TreeSink sink)
    {source rest : Bytes} {tree : Option File}
    (h : parseDump hacking sink source none = .ok (rest, tree)) :
    ∃ x f, tree = some f ∧ x.Legal narMaxDepth ∧
      source = writeString narVersionMagic1 ++ x.encode ++ rest ∧
      (dumpPath hacking defaultPathFilter f = .ok (writeString narVersionMagic1 ++ x.encode) ↔
        Unambiguous x) := by
  obtain ⟨x, hlegal, hsource, hbody, hfeed⟩ := (parseDump_eq_ok sink hacking).mp h
  obtain ⟨f, hf, rfl⟩ := feed_root hs hfeed
  rw [hs.reads] at hbody
  refine ⟨x, f, rfl, hlegal, by rw [hsource, List.append_assoc], ?_⟩
  rw [dumpPath_eq_ok]
  exact ⟨fun hb => (dump_length x hlegal hf hb).2 rfl,
    fun hx => dump_of_unambiguous x hlegal hbody hx hf⟩

namespace Sample

/-- The archive of a node. -/
def archive (x : NarNode) : Bytes := writeString narVersionMagic1 ++ x.encode

/-- Two entries that collide. -/
def colliding : NarNode :=
  .directory [(ascii "A", .symlink (ascii "foo")), (ascii "a", .symlink (ascii "bar"))]

def collidingTree : File :=
  .directory [(ascii "A", .symlink (ascii "foo")),
    (ascii "a~nix~case~hack~1", .symlink (ascii "bar"))]

theorem colliding_legal : colliding.Legal narMaxDepth := by
  simp only [colliding, Legal, LegalEntries]
  decide

theorem parseDump_colliding :
    parseDump hacking restoreSink (archive colliding) none = .ok ([], some collidingTree) := by
  rw [parseDump_eq_ok]
  refine ⟨colliding, colliding_legal, ?_, ⟨trivial, trivial, trivial⟩, rfl⟩
  rw [archive, List.append_nil]

/-- An entry whose name has the suffix. -/
def suffixed : NarNode := .directory [(ascii "foo~nix~case~hack~", .symlink (ascii "bar"))]

def suffixedTree : File := .directory [(ascii "foo~nix~case~hack~", .symlink (ascii "bar"))]

theorem suffixed_legal : suffixed.Legal narMaxDepth := by
  simp only [suffixed, Legal, LegalEntries]
  decide

theorem restored_suffixed : restored suffixed = some suffixedTree := rfl

theorem parseDump_suffixed :
    parseDump hacking restoreSink (archive suffixed) none = .ok ([], some suffixedTree) := by
  rw [parseDump_eq_ok]
  refine ⟨suffixed, suffixed_legal, ?_, ⟨trivial, trivial⟩, rfl⟩
  rw [archive, List.append_nil]

end Sample

theorem dumpPath_restored_iff_colliding :
    ∃ x f, some Sample.collidingTree = some f ∧ x.Legal narMaxDepth ∧
      Sample.archive Sample.colliding = writeString narVersionMagic1 ++ x.encode ++ [] ∧
      (dumpPath hacking defaultPathFilter f = .ok (writeString narVersionMagic1 ++ x.encode) ↔
        Unambiguous x) :=
  dumpPath_restored_iff restoreSink_tree Sample.parseDump_colliding

/-- An archive with a name that has the suffix is accepted, and its tree is
    dumped as another one. -/
theorem dumpPath_suffixed :
    parseDump hacking restoreSink (Sample.archive Sample.suffixed) none =
        .ok ([], some Sample.suffixedTree) ∧
      dumpPath hacking defaultPathFilter Sample.suffixedTree ≠
        .ok (Sample.archive Sample.suffixed) := by
  refine ⟨Sample.parseDump_suffixed, fun h => ?_⟩
  have hdump := CaseHack.dumpPath_eq_ok.mp h
  have hsame := (dump_length Sample.suffixed Sample.suffixed_legal Sample.restored_suffixed hdump).2
    rfl
  have hsafe : UnambiguousEntries [] [(ascii "foo~nix~case~hack~", .symlink (ascii "bar"))] := hsame
  rw [UnambiguousEntries] at hsafe
  exact hsafe.1.1 ⟨ascii "foo", [], by decide⟩

end CaseHack
end NixStore
