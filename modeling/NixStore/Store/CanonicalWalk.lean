/-
  NixStore.Store.CanonicalWalk

  What `canonicaliseTimestampAndPermissions` and the walk that makes it do with
  a tree whose modes go with what its inodes hold: every path that the walk
  comes to is canonical afterwards, and a path that is canonical stays so
  (`canonicalisePathMetaData_canonical`).
-/

import NixStore.Store.CanonicalStamps

namespace NixStore

open SortedMap

/-- The names in a directory of a tree. -/
def File.listing (f : File) (path : NodePath) : List Bytes :=
  match f.at? path with
  | some (.directory entries) => entries.map Prod.fst
  | _ => []

theorem File.mem_listing {f : File} {path : NodePath} {name : Bytes} :
    name ∈ f.listing path ↔ (f.view (path ++ [name])).isSome := by
  unfold File.listing File.view
  rw [Option.isSome_map, File.at?_append]
  cases f.at? path with
  | none => exact iff_of_false List.not_mem_nil nofun
  | some g =>
      cases g with
      | regular _ _ => exact iff_of_false List.not_mem_nil nofun
      | symlink _ => exact iff_of_false List.not_mem_nil nofun
      | directory entries =>
          show name ∈ entries.map Prod.fst ↔ ((find? name entries).bind (File.at? [])).isSome
          rw [← isSome_find?]
          cases find? name entries <;> exact Iff.rfl

namespace Stamping

section

variable {f : File} {readdir : NodePath → List Bytes} {s s' t : Stamping} {path q : NodePath}

-- ============================================================================
-- Canonical paths
-- ============================================================================

theorem stat_none (h : s.w.fs.names (.inside q) = none) : s.stat q = none := by
  unfold stat
  rw [h]

theorem stat_directory (h : s.w.fs.names (.inside q) = some .directory) :
    s.stat q = some (s.dir q) := by
  unfold stat
  rw [h]

theorem stat_object {i : Nat} (h : s.w.fs.names (.inside q) = some (.object i)) :
    s.stat q = some (s.inode i) := by
  unfold stat
  rw [h]

/-- A path has the mode and the time of a node of the store. -/
def CanonicalAt (s : Stamping) (q : NodePath) : Prop :=
  s.stat q = (s.w.fs.read (.inside q)).map Node.metadata

theorem canonicalAt_directory (h : s.w.fs.names (.inside q) = some .directory) :
    s.CanonicalAt q ↔ s.dir q = Node.directory.metadata := by
  unfold CanonicalAt
  rw [stat_directory h, Fs.read, h]
  exact ⟨Option.some.inj, congrArg some⟩

theorem canonicalAt_object {i : Nat} (h : s.w.fs.names (.inside q) = some (.object i)) :
    s.CanonicalAt q ↔ s.inode i = (Node.object (s.w.fs.inodes i)).metadata := by
  unfold CanonicalAt
  rw [stat_object h, Fs.read_object h]
  exact ⟨Option.some.inj, congrArg some⟩

/-- Modes go with what the inodes at and below the destination hold. -/
def AllAgree (s : Stamping) : Prop :=
  ∀ q i, s.w.fs.names (.inside q) = some (.object i) → (s.inode i).Agrees (s.w.fs.inodes i)

/-- Some modes and times have become canonical, and nothing else has changed. -/
structure Canonised (s s' : Stamping) : Prop where
  w : s'.w = s.w
  inode : ∀ i, s'.inode i = s.inode i ∨ s'.inode i = (Node.object (s.w.fs.inodes i)).metadata
  dir : ∀ q, s'.dir q = s.dir q ∨ s'.dir q = Node.directory.metadata

theorem Canonised.refl (s : Stamping) : Canonised s s :=
  ⟨rfl, fun _ => Or.inl rfl, fun _ => Or.inl rfl⟩

theorem Canonised.trans (h : Canonised s s') (h' : Canonised s' t) : Canonised s t := by
  obtain ⟨hw, hinode, hdir⟩ := h
  obtain ⟨hw', hinode', hdir'⟩ := h'
  rw [hw] at hinode'
  refine ⟨hw'.trans hw, fun i => ?_, fun q => ?_⟩
  · rcases hinode' i with hsame | hcanonical
    · rw [hsame]
      exact hinode i
    · exact Or.inr hcanonical
  · rcases hdir' q with hsame | hcanonical
    · rw [hsame]
      exact hdir q
    · exact Or.inr hcanonical

/-- What is canonical stays so. -/
theorem Canonised.keeps (h : Canonised s s') (hq : s.CanonicalAt q) : s'.CanonicalAt q := by
  cases hname : s.w.fs.names (.inside q) with
  | none =>
      have hname' : s'.w.fs.names (.inside q) = none := by
        rw [h.w]
        exact hname
      unfold CanonicalAt
      rw [stat_none hname', Fs.read, hname']
      rfl
  | some e =>
      cases e with
      | directory =>
          rw [canonicalAt_directory (by rw [h.w]; exact hname)]
          rw [canonicalAt_directory hname] at hq
          rcases h.dir q with hsame | hcanonical
          · rw [hsame, hq]
          · exact hcanonical
      | object i =>
          rw [canonicalAt_object (by rw [h.w]; exact hname), h.w]
          rw [canonicalAt_object hname] at hq
          rcases h.inode i with hsame | hcanonical
          · rw [hsame, hq]
          · exact hcanonical

theorem Canonised.allAgree (h : Canonised s s') (hagree : s.AllAgree) : s'.AllAgree := by
  intro q i hname
  rw [h.w] at hname ⊢
  rcases h.inode i with hsame | hcanonical
  · rw [hsame]
    exact hagree q i hname
  · rw [hcanonical]
    exact agrees_metadata _

-- ============================================================================
-- One path
-- ============================================================================

theorem canonised_setDir (path : NodePath) :
    Canonised s (s.setDir path Node.directory.metadata) where
  w := rfl
  inode _ := Or.inl rfl
  dir q := by
    by_cases hq : q = path
    · rw [hq]
      exact Or.inr (Function.update_self _ _ _)
    · exact Or.inl (Function.update_of_ne hq _ _)

theorem canonised_setInode (i : Nat) :
    Canonised s (s.setInode i (Node.object (s.w.fs.inodes i)).metadata) where
  w := rfl
  inode j := by
    by_cases hj : j = i
    · rw [hj]
      exact Or.inr (Function.update_self _ _ _)
    · exact Or.inl (Function.update_of_ne hj _ _)
  dir _ := Or.inl rfl

theorem canonicaliseTimestampAndPermissions_canonical (hagree : s.AllAgree)
    (hname : s.w.fs.names (.inside path) ≠ none) :
    ∃ s', s.canonicaliseTimestampAndPermissions path = .ok s' ∧ Canonised s s' ∧
      s'.CanonicalAt path := by
  unfold canonicaliseTimestampAndPermissions
  cases hat : s.w.fs.names (.inside path) with
  | none => exact absurd hat hname
  | some e =>
      cases e with
      | directory =>
          dsimp only
          rw [canonicalise_directory]
          exact ⟨_, rfl, canonised_setDir path,
            (canonicalAt_directory (by exact hat)).mpr (Function.update_self _ _ _)⟩
      | object i =>
          dsimp only
          rw [canonicalise_object (hagree path i hat)]
          exact ⟨_, rfl, canonised_setInode i,
            (canonicalAt_object (by exact hat)).mpr (Function.update_self _ _ _)⟩

-- ============================================================================
-- The walk
-- ============================================================================

/-- `readdir` lists the directories. -/
def Lists (readdir : NodePath → List Bytes) (s : Stamping) : Prop :=
  ∀ path name, name ∈ readdir path ↔ s.w.fs.names (.inside (path ++ [name])) ≠ none

theorem isSome_view (hreads : ∀ q, s.w.fs.read (.inside q) = f.view q) :
    (f.view q).isSome ↔ s.w.fs.names (.inside q) ≠ none := by
  rw [← hreads, Fs.read]
  cases s.w.fs.names (.inside q) with
  | none => exact ⟨fun h => (by cases h), fun h => absurd rfl h⟩
  | some e => cases e <;> exact ⟨fun _ => Option.some_ne_none _, fun _ => rfl⟩

/-- A listing of a tree is one of the directories that show it. -/
theorem lists_listing (hreads : ∀ q, s.w.fs.read (.inside q) = f.view q) : Lists f.listing s :=
  fun _ _ => File.mem_listing.trans (isSome_view hreads)

/-- Entries that are walked one after another. -/
theorem foldlM_canonical {step : Stamping → Bytes → Except Error Stamping} {l : List Bytes}
    (hstep : ∀ name ∈ l, ∀ t, Canonised s t → ∃ s', step t name = .ok s' ∧ Canonised t s' ∧
      ∀ r, (f.view (path ++ name :: r)).isSome → s'.CanonicalAt (path ++ name :: r))
    (ht : Canonised s t) :
    ∃ s', l.foldlM step t = .ok s' ∧ Canonised t s' ∧
      ∀ name ∈ l, ∀ r, (f.view (path ++ name :: r)).isSome →
        s'.CanonicalAt (path ++ name :: r) := by
  induction l generalizing t with
  | nil => exact ⟨t, rfl, Canonised.refl t, nofun⟩
  | cons name l ih =>
      obtain ⟨s₁, hfirst, hcanonised, hbelow⟩ := hstep name List.mem_cons_self t ht
      obtain ⟨s', hrest, hcanonised', hothers⟩ :=
        ih (fun a ha => hstep a (List.mem_cons_of_mem _ ha)) (ht.trans hcanonised)
      refine ⟨s', ?_, hcanonised.trans hcanonised', fun a ha r hr => ?_⟩
      · rw [List.foldlM_cons, hfirst]
        exact hrest
      · rcases List.mem_cons.mp ha with rfl | ha
        · exact hcanonised'.keeps (hbelow r hr)
        · exact hothers a ha r hr

/-- The walk comes to every path at and below the one it starts at. -/
theorem canonicalisePathMetaData_canonical {n : Nat}
    (hreads : ∀ q, s.w.fs.read (.inside q) = f.view q) (hlists : Lists readdir s)
    (hagree : s.AllAgree) (hpath : (f.view path).isSome)
    (hdepth : ∀ r, (f.view (path ++ r)).isSome → r.length < n) :
    ∃ s', canonicalisePathMetaData_ readdir n path s = .ok s' ∧ Canonised s s' ∧
      ∀ r, (f.view (path ++ r)).isSome → s'.CanonicalAt (path ++ r) := by
  induction n generalizing s path with
  | zero =>
      have hlt := hdepth [] (by rw [List.append_nil]; exact hpath)
      cases hlt
  | succ n ih =>
      obtain ⟨s₁, hstep, hcanonised, hat⟩ :=
        canonicaliseTimestampAndPermissions_canonical hagree ((isSome_view hreads).mp hpath)
      rw [canonicalisePathMetaData_, hstep, ok_bind]
      by_cases hdirectory : s₁.w.fs.names (.inside path) = some .directory
      · rw [if_pos hdirectory]
        have hentry : ∀ name ∈ readdir path, ∀ t, Canonised s t →
            ∃ s', canonicalisePathMetaData_ readdir n (path ++ [name]) t = .ok s' ∧
              Canonised t s' ∧ ∀ r, (f.view (path ++ name :: r)).isSome →
                s'.CanonicalAt (path ++ name :: r) := by
          intro name hname t ht
          have hnamed := (isSome_view hreads).mpr ((hlists path name).mp hname)
          have hbelow := ih (s := t) (by rw [ht.w]; exact hreads)
            (by unfold Lists; rw [ht.w]; exact hlists) (ht.allAgree hagree) hnamed
          simp only [List.append_assoc, List.singleton_append] at hbelow
          refine hbelow fun r hr => ?_
          have hlt := hdepth (name :: r) hr
          rw [List.length_cons] at hlt
          omega
        obtain ⟨s', hfold, hcanonised', hbelow⟩ := foldlM_canonical hentry hcanonised
        refine ⟨s', hfold, hcanonised.trans hcanonised', fun r hr => ?_⟩
        cases r with
        | nil =>
            rw [List.append_nil]
            exact hcanonised'.keeps hat
        | cons name r =>
            refine hbelow name ?_ r hr
            exact (hlists path name).mpr ((isSome_view hreads).mp (File.view_parent hr).2)
      · rw [if_neg hdirectory]
        refine ⟨s₁, rfl, hcanonised, fun r hr => ?_⟩
        cases r with
        | nil =>
            rw [List.append_nil]
            exact hat
        | cons name r =>
            -- only a directory has something below it
            rw [hcanonised.w] at hdirectory
            refine absurd (Restoring.names_of_read_directory ?_) hdirectory
            rw [hreads]
            exact (File.view_parent hr).1

end

end Stamping

end NixStore
