/-
  NixStore.Util.OpenBeneath

  `openFileEnsureBeneathNoSymlinks` whatever the other processes do: it never
  follows a symbolic link and never leaves the directory it starts in
  (`open_stays_beneath`).  When nothing changes, `openat2` and the loop over the
  components answer alike (`open_agrees`).
-/

import NixStore.Util.FileSystemAt

namespace NixStore
namespace FileSystemAt

variable {fs : Files} {flags : OpenFlags} {dir i : Nat} {name : Bytes}

-- ============================================================================
-- One system call
-- ============================================================================

theorem nameAt_ne_loop : nameAt fs dir name ≠ .error .loop := by
  unfold nameAt
  split
  · cases hchild : (fs dir).child name <;> simp
  · simp

/-- What may be opened: a symbolic link only as a path descriptor. -/
structure Admits (flags : OpenFlags) (n : Inode Bytes Bytes Leaf) : Prop where
  symlink : n.isSymlink = true →
    flags.noFollow = true ∧ flags.path = true ∧ flags.directory = false
  directory : flags.directory = true → n.isDirectory = true

/-- A file has been created under a missing name. -/
structure Creates (fs : Files) (flags : OpenFlags) (dir : Nat) (name : Bytes) : Prop where
  creat : flags.creat = true
  missing : nameAt fs dir name = .error .noent

theorem openLast_eq_ok {fresh : Nat} (h : openLast fs fresh flags dir name = .ok i) :
    (fs dir).child name = some i ∧ Admits flags (fs i) ∨
      Creates fs flags dir name ∧ i = fresh := by
  unfold openLast at h
  cases hname : nameAt fs dir name with
  | error e =>
      rw [hname] at h
      cases e with
      | noent =>
          simp only at h
          split at h
          · next hcreat =>
              cases h
              exact Or.inr ⟨⟨hcreat, hname⟩, rfl⟩
          · cases h
      | notdir | loop | exist | isdir | other _ => cases h
  | ok j =>
      rw [hname] at h
      simp only at h
      split at h
      · cases h
      · cases hj : fs j with
        | symlink target =>
            rw [hj] at h
            simp only at h
            split at h
            · cases h
            · next hdirectory =>
                split at h
                · next hpath =>
                    cases h
                    refine Or.inl ⟨nameAt_eq_ok.mp hname, fun _ => ?_, fun hd => ?_⟩
                    · refine ⟨hpath.1, hpath.2, ?_⟩
                      rw [← Bool.not_eq_true]
                      exact fun hd => hdirectory ⟨hpath.1, hd⟩
                    · exact absurd ⟨hpath.1, hd⟩ hdirectory
                · cases h
        | directory entries =>
            rw [hj] at h
            simp only at h
            split at h
            · cases h
            · cases h
              rw [hj]
              exact Or.inl ⟨nameAt_eq_ok.mp hname, fun hs => (by cases hs), fun _ => rfl⟩
        | object contents =>
            rw [hj] at h
            simp only at h
            split at h
            · cases h
            · next hdirectory =>
                cases h
                rw [hj]
                exact Or.inl ⟨nameAt_eq_ok.mp hname, fun hs => (by cases hs),
                  fun hd => absurd hd hdirectory⟩

/-- `ELOOP` says that the last component is a symbolic link. -/
theorem openLast_eq_loop {fresh : Nat} (h : openLast fs fresh flags dir name = .error .loop) :
    ∃ i, (fs dir).child name = some i ∧ (fs i).isSymlink = true := by
  unfold openLast at h
  cases hname : nameAt fs dir name with
  | error e =>
      rw [hname] at h
      cases e with
      | noent =>
          simp only at h
          split at h <;> cases h
      | loop => exact absurd hname nameAt_ne_loop
      | notdir | exist | isdir | other _ => cases h
  | ok j =>
      rw [hname] at h
      simp only at h
      split at h
      · cases h
      · cases hj : fs j with
        | symlink target => exact ⟨j, nameAt_eq_ok.mp hname, by rw [hj]; rfl⟩
        | directory entries =>
            rw [hj] at h
            simp only at h
            split at h <;> cases h
        | object contents =>
            rw [hj] at h
            simp only at h
            split at h <;> cases h

-- ============================================================================
-- Any history
-- ============================================================================

variable {w : World} {t₀ dirFd : Nat} {path : NodePath}

/-- A symbolic link was seen under a path. -/
def SeesSymlink (w : World) (t₀ dirFd : Nat) (path : NodePath) : Prop :=
  ∃ i, Finds w.fs (fun n => n.isSymlink = true) t₀ dirFd path i

/-- What a descriptor stands for that has been returned for a path. -/
inductive Returned (w : World) (flags : OpenFlags) (t₀ dirFd : Nat) (path : NodePath) (i : Nat) :
    Prop
  | found : Finds w.fs (fun n => (n.isSymlink = true → flags.path = true ∧ flags.directory = false) ∧
      (flags.directory = true → n.isDirectory = true)) t₀ dirFd path i → Returned w flags t₀ dirFd path i
  | created {init : NodePath} {name : Bytes} {t d t' : Nat} : path = init ++ [name] →
      Leads w.fs t₀ dirFd init t d → t ≤ t' → Creates (w.fs t') flags d name → i = w.fresh t' →
      Returned w flags t₀ dirFd path i

/-- What `openFileEnsureBeneathNoSymlinks` may answer. -/
structure StaysBeneath (w : World) (flags : OpenFlags) (t₀ dirFd : Nat) (path : NodePath)
    (r : Opened × Walk) : Prop where
  fd : ∀ i, r.1 = .fd i → Returned w flags t₀ dirFd path i
  symlinkNotAllowed : ∀ p, r.1 = .symlinkNotAllowed p →
    p <+: path ∧ ∃ q, q <+: p ∧ SeesSymlink w t₀ dirFd q
  errno : r.1 ≠ .failed .loop
  callbacks : ∀ c ∈ r.2.callbacks, c.2 ≠ [] ∧ c.2 <+: path ∧ ∃ t, Leads w.fs t₀ dirFd c.2 t c.1

/-- What holds before a component is opened. -/
structure WalkInv (w : World) (t₀ dirFd : Nat) (path rest : NodePath) (st : Walk) : Prop where
  split : path = st.currentRelPath ++ rest
  leads : ∃ t, t ≤ st.time ∧ Leads w.fs t₀ dirFd st.currentRelPath t (st.getParentFd dirFd)
  parent : ∀ fd, st.parentFd = some fd → st.currentRelPath ≠ []
  callbacks : ∀ c ∈ st.callbacks, c.2 ≠ [] ∧ c.2 <+: path ∧ ∃ t, Leads w.fs t₀ dirFd c.2 t c.1

theorem walkInv_start (w : World) (t₀ dirFd : Nat) (path : NodePath) :
    WalkInv w t₀ dirFd path path (Walk.start t₀) where
  split := rfl
  leads := ⟨t₀, le_rfl, .here⟩
  parent := fun _ h => by cases h
  callbacks := fun _ h => by cases h

theorem openat_eq_ok {t : Nat} (h : w.openat t dir name flags = .ok i) :
    openLast (w.fs t) (w.fresh t) flags dir name = .ok i := by
  unfold World.openat at h
  cases hf : w.fails t with
  | none =>
      rw [hf] at h
      exact h
  | some code =>
      rw [hf] at h
      cases h

theorem openat_eq_loop {t : Nat} (h : w.openat t dir name flags = .error .loop) :
    openLast (w.fs t) (w.fresh t) flags dir name = .error .loop := by
  unfold World.openat at h
  cases hf : w.fails t with
  | none =>
      rw [hf] at h
      exact h
  | some code =>
      rw [hf] at h
      cases h

theorem maybeFstatat_eq_some {t : Nat} {n : Inode Bytes Bytes Leaf}
    (h : w.maybeFstatat t dir name = .ok (some n)) :
    ∃ i, (w.fs t dir).child name = some i ∧ n = w.fs t i := by
  unfold World.maybeFstatat at h
  cases hf : w.fails t with
  | some code =>
      rw [hf] at h
      cases h
  | none =>
      rw [hf] at h
      cases hname : nameAt (w.fs t) dir name with
      | error e =>
          rw [hname] at h
          cases h
      | ok i =>
          rw [hname] at h
          cases h
          exact ⟨i, nameAt_eq_ok.mp hname, rfl⟩

/-- What is said about a component that could not be opened. -/
theorem diagnose_stays {component : Bytes} {rest : NodePath} {st : Walk} {e : Errno}
    (h : WalkInv w t₀ dirFd path (component :: rest) st)
    (hloop : e = .loop → w.openat st.time (st.getParentFd dirFd) component flags = .error .loop) :
    (∀ i, diagnose w dirFd st component e ≠ .fd i) ∧
      (∀ p, diagnose w dirFd st component e = .symlinkNotAllowed p →
        p <+: path ∧ SeesSymlink w t₀ dirFd p) ∧
      diagnose w dirFd st component e ≠ .failed .loop := by
  obtain ⟨t, ht, hleads⟩ := h.leads
  have hprefix : st.currentRelPath ++ [component] <+: path := by
    rw [h.split]
    exact ⟨rest, by simp⟩
  have hsees : ∀ t' j, t ≤ t' → (w.fs t' (st.getParentFd dirFd)).child component = some j →
      (w.fs t' j).isSymlink = true →
      SeesSymlink w t₀ dirFd (st.currentRelPath ++ [component]) :=
    fun t' j htt' hchild hsymlink => ⟨j, .of_child hleads htt' hchild hsymlink⟩
  cases e with
  | notdir =>
      simp only [diagnose]
      cases hstat : w.maybeFstatat (st.time + 1) (st.getParentFd dirFd) component with
      | error code => simp
      | ok n =>
          cases n with
          | none => simp
          | some n =>
              cases n with
              | symlink target =>
                  obtain ⟨j, hchild, hj⟩ := maybeFstatat_eq_some hstat
                  refine ⟨fun _ => Opened.noConfusion, fun p hp => ?_, Opened.noConfusion⟩
                  cases hp
                  exact ⟨ hprefix, hsees _ j (Nat.le_succ_of_le ht) hchild (by rw [← hj]; rfl)⟩
              | directory _ | object _ => simp
  | loop =>
      obtain ⟨j, hchild, hsymlink⟩ := openLast_eq_loop (openat_eq_loop (hloop rfl))
      refine ⟨fun _ => Opened.noConfusion, fun p hp => ?_, Opened.noConfusion⟩
      cases hp
      exact ⟨ hprefix, hsees _ j ht hchild hsymlink⟩
  | noent | exist | isdir | other _ => simp [diagnose]

/-- One component further. -/
theorem WalkInv.next {component : Bytes} {rest : NodePath} {st : Walk} {parentFd2 : Nat}
    (h : WalkInv w t₀ dirFd path (component :: rest) st)
    (hopen : w.openat st.time (st.getParentFd dirFd) component innerFlags = .ok parentFd2) :
    WalkInv w t₀ dirFd path rest {
      parentFd := some parentFd2
      currentRelPath := st.currentRelPath ++ [component]
      callbacks := st.callbacks ++ (st.parentFd.map fun fd => (fd, st.currentRelPath)).toList
      time := st.time + 1 } := by
  obtain ⟨t, ht, hleads⟩ := h.leads
  rcases openLast_eq_ok (openat_eq_ok hopen) with ⟨hchild, hadmits⟩ | ⟨hcreates, -⟩
  · refine ⟨?_, ⟨st.time, Nat.le_succ _, .down hleads ht hchild (hadmits.directory rfl)⟩,
      fun _ _ => List.append_ne_nil_of_right_ne_nil _ (List.cons_ne_nil _ _), fun c hc => ?_⟩
    · rw [h.split]
      simp
    · rcases List.mem_append.mp hc with hc | hc
      · exact h.callbacks c hc
      · cases hparent : st.parentFd with
        | none =>
            rw [hparent] at hc
            cases hc
        | some fd =>
            rw [hparent] at hc
            obtain rfl : c = (fd, st.currentRelPath) := by simpa using hc
            refine ⟨h.parent fd hparent, ?_, t, ?_⟩
            · rw [h.split]
              exact List.prefix_append _ _
            · rw [Walk.getParentFd, hparent] at hleads
              exact hleads
  · cases hcreates.creat

/-- The loop over the components. -/
theorem openIterative_stays {rest : NodePath} {st : Walk} (hrest : rest ≠ [])
    (h : WalkInv w t₀ dirFd path rest st) :
    StaysBeneath w flags t₀ dirFd path (openIterative w dirFd flags rest st) := by
  induction rest generalizing st with
  | nil => exact absurd rfl hrest
  | cons component rest ih =>
      cases rest with
      | nil =>
          rw [openIterative]
          cases hopen : w.openat st.time (st.getParentFd dirFd) component
              { flags with noFollow := true } with
          | ok i =>
              refine ⟨fun j hj => ?_, fun _ hp => (by cases hp), Opened.noConfusion, h.callbacks⟩
              cases hj
              obtain ⟨t, ht, hleads⟩ := h.leads
              rw [h.split]
              rcases openLast_eq_ok (openat_eq_ok hopen) with ⟨hchild, hadmits⟩ | ⟨hcreates, hi⟩
              · exact .found (.of_child hleads ht hchild
                  ⟨fun hs => (hadmits.symlink hs).2, hadmits.directory⟩)
              · exact .created rfl hleads ht ⟨hcreates.creat, hcreates.missing⟩ hi
          | error e =>
              obtain ⟨hfd, hsymlink, hloop⟩ := diagnose_stays h (e := e) fun he => he ▸ hopen
              exact ⟨fun i hi => absurd hi (hfd i), fun p hp => (hsymlink p hp).imp_right
                fun hsees => ⟨p, List.prefix_refl p, hsees⟩, hloop, h.callbacks⟩
      | cons next rest =>
          unfold openIterative
          cases hopen : w.openat st.time (st.getParentFd dirFd) component innerFlags with
          | ok parentFd2 => exact ih (List.cons_ne_nil _ _) (h.next hopen)
          | error e =>
              obtain ⟨hfd, hsymlink, hloop⟩ := diagnose_stays h (e := e) fun he => he ▸ hopen
              exact ⟨fun i hi => absurd hi (hfd i), fun p hp => (hsymlink p hp).imp_right
                fun hsees => ⟨p, List.prefix_refl p, hsees⟩, hloop, h.callbacks⟩

/-- The path that it names is that of a symbolic link. -/
theorem openIterative_names {rest : NodePath} {st : Walk} (hrest : rest ≠ [])
    (h : WalkInv w t₀ dirFd path rest st) {p : NodePath}
    (hp : (openIterative w dirFd flags rest st).1 = .symlinkNotAllowed p) :
    p <+: path ∧ SeesSymlink w t₀ dirFd p := by
  induction rest generalizing st with
  | nil => exact absurd rfl hrest
  | cons component rest ih =>
      cases rest with
      | nil =>
          rw [openIterative] at hp
          cases hopen : w.openat st.time (st.getParentFd dirFd) component
              { flags with noFollow := true } with
          | ok i =>
              rw [hopen] at hp
              cases hp
          | error e =>
              rw [hopen] at hp
              exact (diagnose_stays h (e := e) fun he => he ▸ hopen).2.1 p hp
      | cons next rest =>
          unfold openIterative at hp
          cases hopen : w.openat st.time (st.getParentFd dirFd) component innerFlags with
          | ok parentFd2 =>
              rw [hopen] at hp
              exact ih (List.cons_ne_nil _ _) (h.next hopen) hp
          | error e =>
              rw [hopen] at hp
              exact (diagnose_stays h (e := e) fun he => he ▸ hopen).2.1 p hp

-- ============================================================================
-- openat2
-- ============================================================================

/-- `openat2` sees one file system. -/
theorem walkNoSymlinks_leads {t t₁ d : Nat} {init rest : NodePath}
    (hl : Leads w.fs t₀ dirFd init t₁ dir) (ht : t₁ ≤ t)
    (h : walkNoSymlinks (w.fs t) dir rest = .ok d) :
    ∃ t₂, t₂ ≤ t ∧ Leads w.fs t₀ dirFd (init ++ rest) t₂ d := by
  induction rest generalizing dir init t₁ with
  | nil =>
      cases h
      exact ⟨t₁, ht, by rw [List.append_nil]; exact hl⟩
  | cons name rest ih =>
      rw [walkNoSymlinks] at h
      cases hname : nameAt (w.fs t) dir name with
      | error e =>
          rw [hname] at h
          cases h
      | ok i =>
          rw [hname] at h
          simp only at h
          cases hi : w.fs t i with
          | directory entries =>
              rw [hi] at h
              have hdown : Leads w.fs t₀ dirFd (init ++ [name]) t i :=
                .down hl ht (nameAt_eq_ok.mp hname) (by rw [hi]; rfl)
              obtain ⟨t₂, ht₂, hleads⟩ := ih hdown le_rfl h
              exact ⟨t₂, ht₂, by rwa [List.append_assoc] at hleads⟩
          | symlink _ | object _ =>
              rw [hi] at h
              cases h

theorem walkNoSymlinks_eq_loop {t t₁ : Nat} {init rest : NodePath}
    (hl : Leads w.fs t₀ dirFd init t₁ dir) (ht : t₁ ≤ t)
    (h : walkNoSymlinks (w.fs t) dir rest = .error .loop) :
    ∃ q, q <+: init ++ rest ∧ SeesSymlink w t₀ dirFd q := by
  induction rest generalizing dir init t₁ with
  | nil => cases h
  | cons name rest ih =>
      rw [walkNoSymlinks] at h
      cases hname : nameAt (w.fs t) dir name with
      | error e =>
          rw [hname] at h
          cases h
          exact absurd hname nameAt_ne_loop
      | ok i =>
          rw [hname] at h
          simp only at h
          have hchild := nameAt_eq_ok.mp hname
          cases hi : w.fs t i with
          | directory entries =>
              rw [hi] at h
              have hdown : Leads w.fs t₀ dirFd (init ++ [name]) t i :=
                .down hl ht hchild (by rw [hi]; rfl)
              obtain ⟨q, hq, hsees⟩ := ih hdown le_rfl h
              exact ⟨q, by rwa [List.append_assoc] at hq, hsees⟩
          | symlink target =>
              exact ⟨init ++ [name], ⟨rest, by simp⟩, i, .of_child hl ht hchild (by rw [hi]; rfl)⟩
          | object contents =>
              rw [hi] at h
              cases h

theorem openat2_eq_ok {t : Nat} (hpath : path ≠ []) (h : w.openat2 t dirFd path flags = .ok i) :
    Returned w flags t dirFd path i := by
  unfold World.openat2 at h
  split at h
  case isFalse => cases h
  obtain ⟨init, last, rfl⟩ := List.eq_nil_or_concat' path |>.resolve_left hpath
  rw [List.dropLast_concat, List.getLast?_concat, Option.getD_some] at h
  cases hf : w.fails t with
  | some code =>
      rw [hf] at h
      cases h
  | none =>
      rw [hf] at h
      cases hwalk : walkNoSymlinks (w.fs t) dirFd init with
      | error e =>
          rw [hwalk] at h
          cases h
      | ok d =>
          rw [hwalk] at h
          obtain ⟨t₂, ht₂, hleads⟩ := walkNoSymlinks_leads .here le_rfl hwalk
          rw [List.nil_append] at hleads
          rcases openLast_eq_ok h with ⟨hchild, hadmits⟩ | ⟨hcreates, hi⟩
          · exact .found (.of_child hleads ht₂ hchild
              ⟨fun hs => (hadmits.symlink hs).2, hadmits.directory⟩)
          · exact .created rfl hleads ht₂ hcreates hi

theorem openat2_eq_loop {t : Nat} (hpath : path ≠ [])
    (h : w.openat2 t dirFd path flags = .error .loop) :
    ∃ q, q <+: path ∧ SeesSymlink w t dirFd q := by
  unfold World.openat2 at h
  split at h
  case isFalse => cases h
  obtain ⟨init, last, rfl⟩ := List.eq_nil_or_concat' path |>.resolve_left hpath
  rw [List.dropLast_concat, List.getLast?_concat, Option.getD_some] at h
  cases hf : w.fails t with
  | some code =>
      rw [hf] at h
      cases h
  | none =>
      rw [hf] at h
      cases hwalk : walkNoSymlinks (w.fs t) dirFd init with
      | error e =>
          rw [hwalk] at h
          cases h
          obtain ⟨q, hq, hsees⟩ := walkNoSymlinks_eq_loop .here le_rfl hwalk
          rw [List.nil_append] at hq
          exact ⟨q, hq.trans (List.prefix_append _ _), hsees⟩
      | ok d =>
          rw [hwalk] at h
          obtain ⟨t₂, ht₂, hleads⟩ := walkNoSymlinks_leads .here le_rfl hwalk
          rw [List.nil_append] at hleads
          obtain ⟨i, hchild, hsymlink⟩ := openLast_eq_loop h
          exact ⟨init ++ [last], List.prefix_refl _, i, .of_child hleads ht₂ hchild hsymlink⟩

theorem Returned.of_flags {flags' : OpenFlags} {t : Nat} (h : Returned w flags' t dirFd path i)
    (hpath : flags'.path = flags.path) (hdirectory : flags'.directory = flags.directory)
    (hcreat : flags'.creat = flags.creat) : Returned w flags t dirFd path i := by
  cases h with
  | found hfinds =>
      rw [hpath, hdirectory] at hfinds
      exact .found hfinds
  | created hsplit hleads ht hcreates hi =>
      exact .created hsplit hleads ht ⟨hcreat ▸ hcreates.creat, hcreates.missing⟩ hi

/-- Where what `openFileEnsureBeneathNoSymlinks` answers comes from. -/
theorem openFile_stays (w : World) (haveOpenat2 : Bool) (t dirFd : Nat) (flags : OpenFlags)
    (hpath : path ≠ []) :
    StaysBeneath w flags t dirFd path
      (openFileEnsureBeneathNoSymlinks w haveOpenat2 t dirFd path flags) := by
  unfold openFileEnsureBeneathNoSymlinks
  cases haveOpenat2 with
  | false => exact openIterative_stays hpath (walkInv_start w t dirFd path)
  | true =>
      simp only [if_true]
      generalize hflags : (if flags.path ∧ ¬ flags.directory then
        { flags with noFollow := true } else flags) = flagsAdj
      have hsame : flagsAdj.path = flags.path ∧ flagsAdj.directory = flags.directory ∧
          flagsAdj.creat = flags.creat := by
        rw [← hflags]
        split <;> exact ⟨rfl, rfl, rfl⟩
      cases hopen : w.openat2 t dirFd path flagsAdj with
      | ok i =>
          refine ⟨fun j hj => ?_, fun _ hp => (by cases hp), Opened.noConfusion,
            fun _ hc => by cases hc⟩
          cases hj
          exact (openat2_eq_ok hpath hopen).of_flags hsame.1 hsame.2.1 hsame.2.2
      | error e =>
          cases e with
          | loop =>
              refine ⟨fun _ hj => (by cases hj), fun p hp => ?_, Opened.noConfusion,
                fun _ hc => by cases hc⟩
              cases hp
              exact ⟨List.prefix_refl _, openat2_eq_loop hpath hopen⟩
          | noent | notdir | exist | isdir | other _ =>
              refine ⟨fun _ hj => (by cases hj), fun _ hp => (by cases hp), ?_,
                fun _ hc => by cases hc⟩
              intro hloop
              cases hloop

/-- Whatever is renamed, replaced or removed between two system calls, with and
    without `openat2`: a descriptor stands for what lookups of the components
    found, each in the directory that the one before had found; a symbolic link
    is only returned as a path descriptor, and `SymlinkNotAllowed` is thrown for
    a path with a symbolic link.  So the descriptors that are returned or given
    to `dirFdCallback` never leave what the directory contains. -/
theorem open_stays_beneath (w : World) (haveOpenat2 : Bool) (t dirFd : Nat) (path : NodePath)
    (flags : OpenFlags) (hpath : path ≠ []) :
    let r := openFileEnsureBeneathNoSymlinks w haveOpenat2 t dirFd path flags
    StaysBeneath w flags t dirFd path r ∧
      ∀ S : Nat → Prop, Confines w.fs S → S dirFd →
        (∀ i, r.1 = .fd i → S i ∨ flags.creat = true ∧ ∃ t', i = w.fresh t') ∧
        ∀ c ∈ r.2.callbacks, S c.1 := by
  intro r
  have hstays : StaysBeneath w flags t dirFd path r := openFile_stays w haveOpenat2 t dirFd flags hpath
  refine ⟨hstays, fun S hS hdir => ⟨fun i hi => ?_, fun c hc => ?_⟩⟩
  · cases hstays.fd i hi with
    | found hfinds => exact Or.inl (hfinds.confined hS hdir)
    | created _ _ _ hcreates hfresh => exact Or.inr ⟨hcreates.creat, _, hfresh⟩
  · obtain ⟨_, _, _, hleads⟩ := hstays.callbacks c hc
    exact hleads.confined hS hdir

/-- Nobody changes anything, and no call fails for a reason of its own. -/
structure Still (w : World) (fs : Files) (fresh : Nat) : Prop where
  fs : ∀ t, w.fs t = fs
  fails : ∀ t, w.fails t = none
  fresh : ∀ t, w.fresh t = fresh

namespace Sample

/-- The flags of `readFile`. -/
def readOnly : OpenFlags where
  path := false
  directory := false
  creat := false
  excl := false
  noFollow := false

/-- The file `a/b`, and a symbolic link. -/
def files (a : Nat) : Files
  | 0 => .directory [(ascii "a", a)]
  | 1 => .directory [(ascii "b", 2)]
  | 2 => .object (.regular false [])
  | _ => .symlink (ascii "/etc")

/-- Somebody puts the link in the place of `a` after it has been looked up. -/
def swapped : World where
  fs := fun t => files (if t = 0 then 1 else 3)
  fails := fun _ => none
  fresh := fun _ => 4

/-- The link is in the place of `a` from the start. -/
def linked : World := { swapped with fs := fun _ => files 3 }

theorem still_linked : Still linked (files 3) 4 := ⟨fun _ => rfl, fun _ => rfl, fun _ => rfl⟩

theorem valid_readOnly : readOnly.Valid := ⟨rfl, fun h => (by cases h), fun h => by cases h⟩

end Sample

theorem open_stays_beneath_swapped :
    (openFileEnsureBeneathNoSymlinks Sample.swapped false 0 0 [ascii "a", ascii "b"]
      Sample.readOnly).1 = .fd 2 ∧
    ∀ S : Nat → Prop, Confines Sample.swapped.fs S → S 0 → S 2 := by
  have hopen : (openFileEnsureBeneathNoSymlinks Sample.swapped false 0 0 [ascii "a", ascii "b"]
      Sample.readOnly).1 = .fd 2 := by
    decide +kernel
  refine ⟨hopen, fun S hS h0 => ?_⟩
  obtain ⟨-, hstays⟩ := open_stays_beneath Sample.swapped false 0 0 [ascii "a", ascii "b"]
    Sample.readOnly (List.cons_ne_nil _ _)
  rcases (hstays S hS h0).1 2 hopen with h2 | ⟨hcreat, -⟩
  · exact h2
  · cases hcreat

-- ============================================================================
-- With and without openat2
-- ============================================================================

/-- What the caller is told about the answer of `openat2`. -/
def answer (path : NodePath) : Except Errno Nat → Opened
  | .ok i => .fd i
  | .error .loop => .symlinkNotAllowed path
  | .error e => .failed e

/-- The same answer, about the whole path. -/
def Opened.about (path : NodePath) : Opened → Opened
  | .symlinkNotAllowed _ => .symlinkNotAllowed path
  | r => r

/-- The flags for `openat2`. -/
def flagsAdj (flags : OpenFlags) : OpenFlags :=
  if flags.path ∧ ¬ flags.directory then { flags with noFollow := true } else flags

variable {fresh : Nat}

theorem Still.openat (hw : Still w fs fresh) (t : Nat) :
    w.openat t dir name flags = openLast fs fresh flags dir name := by
  simp only [World.openat, hw.fails, hw.fs, hw.fresh]

theorem Still.maybeFstatat (hw : Still w fs fresh) (t : Nat) (h : nameAt fs dir name = .ok i) :
    w.maybeFstatat t dir name = .ok (some (fs i)) := by
  simp only [World.maybeFstatat, hw.fails, hw.fs, h]

theorem Still.maybeFstatat_none (hw : Still w fs fresh) (t : Nat) {e : Errno}
    (h : nameAt fs dir name = .error e) : w.maybeFstatat t dir name = .ok none := by
  simp only [World.maybeFstatat, hw.fails, hw.fs, h]

/-- A component on the way is opened if it is a directory. -/
theorem openLast_inner : openLast fs fresh innerFlags dir name =
    (nameAt fs dir name).bind fun i => if (fs i).isDirectory then .ok i else .error .notdir := by
  unfold openLast
  cases hname : nameAt fs dir name with
  | error e => rcases nameAt_eq_error hname with rfl | rfl <;> rfl
  | ok i =>
      simp only [Except.bind]
      cases fs i <;> rfl

/-- The last component. -/
theorem last_agrees (hw : Still w fs fresh) (hflags : flags.Valid) (st : Walk) :
    (match openLast fs fresh { flags with noFollow := true } (st.getParentFd dirFd) name with
      | .ok i => .fd i
      | .error e => diagnose w dirFd st name e : Opened).about path =
    answer path (openLast fs fresh (flagsAdj flags) (st.getParentFd dirFd) name) := by
  -- `flagsAdj` changes no flag but `noFollow`
  have hcreat : (flagsAdj flags).creat = flags.creat := by unfold flagsAdj; split <;> rfl
  have hexcl : (flagsAdj flags).excl = flags.excl := by unfold flagsAdj; split <;> rfl
  have hpath : (flagsAdj flags).path = flags.path := by unfold flagsAdj; split <;> rfl
  have hdirectory : (flagsAdj flags).directory = flags.directory := by
    unfold flagsAdj; split <;> rfl
  have hnoFollow : (flagsAdj flags).noFollow = true ↔
      flags.path = true ∧ ¬ flags.directory = true := by
    unfold flagsAdj
    split
    · next h => exact iff_of_true rfl h
    · next h =>
        rw [hflags.noFollow]
        exact iff_of_false Bool.false_ne_true h
  unfold openLast
  rw [hcreat, hexcl, hpath, hdirectory]
  -- what stands under the last name, and then which flags ask about it
  cases hname : nameAt fs (st.getParentFd dirFd) name with
  | error e =>
      rcases nameAt_eq_error hname with rfl | rfl
      · by_cases hc : flags.creat = true
        · simp only [hc, if_true]
          rfl
        · simp only [hc]
          rfl
      · simp only [diagnose, hw.maybeFstatat_none _ hname]
        rfl
  | ok i =>
      by_cases hexist : flags.creat = true ∧ flags.excl = true
      · simp only [hexist, and_self, if_true]
        rfl
      · simp only [if_neg hexist]
        cases hi : fs i with
        | directory entries =>
            by_cases hc : flags.creat = true
            · simp only [hc, if_true]
              rfl
            · simp only [hc]
              rfl
        | object contents =>
            by_cases hd : flags.directory = true
            · simp only [hd, if_true, diagnose, hw.maybeFstatat _ hname, hi]
              rfl
            · simp only [hd]
              rfl
        | symlink target =>
            simp only [true_and]
            by_cases hd : flags.directory = true
            · have hno : ¬ (flagsAdj flags).noFollow = true := fun h => (hnoFollow.mp h).2 hd
              simp only [hd, if_true, hno, diagnose, hw.maybeFstatat _ hname, hi]
              rfl
            · by_cases hp : flags.path = true
              · simp only [hd, hp, hnoFollow.mpr ⟨hp, hd⟩]
                rfl
              · simp only [hd, hp, Bool.false_eq_true, and_false, if_false]
                rfl

/-- The loop over the components and `openat2` see the same. -/
theorem openIterative_agrees (hw : Still w fs fresh) (hflags : flags.Valid) {rest : NodePath}
    (hrest : rest ≠ []) (st : Walk) :
    (openIterative w dirFd flags rest st).1.about path =
      answer path (do
        let dir ← walkNoSymlinks fs (st.getParentFd dirFd) rest.dropLast
        openLast fs fresh (flagsAdj flags) dir (rest.getLast?.getD [])) := by
  induction rest generalizing st with
  | nil => exact absurd rfl hrest
  | cons component rest ih =>
      cases rest with
      | nil =>
          unfold openIterative
          rw [hw.openat]
          change _ = answer path (openLast fs fresh (flagsAdj flags) (st.getParentFd dirFd) component)
          rw [← last_agrees hw hflags st]
          cases openLast fs fresh { flags with noFollow := true } (st.getParentFd dirFd) component <;>
            rfl
      | cons next rest =>
          unfold openIterative
          rw [hw.openat, List.dropLast_cons_of_ne_nil (List.cons_ne_nil _ _), walkNoSymlinks,
            List.getLast?_cons_cons, openLast_inner]
          cases hname : nameAt fs (st.getParentFd dirFd) component with
          | error e =>
              rcases nameAt_eq_error hname with rfl | rfl
              · rfl
              · simp only [Except.bind, diagnose, hw.maybeFstatat_none _ hname]
                rfl
          | ok i =>
              cases hi : fs i with
              | directory entries =>
                  simp only [Except.bind, hi]
                  exact ih (List.cons_ne_nil _ _) _
              | symlink target | object contents =>
                  simp only [Except.bind, diagnose, hw.maybeFstatat _ hname, hi]
                  rfl

/-- When nothing changes, a kernel with `openat2` and one without give the same
    answer, but for the path that is named. -/
theorem openFile_agrees (hw : Still w fs fresh) (hflags : flags.Valid) (t t' dirFd : Nat)
    (hpath : path ≠ []) (hshort : Short path) :
    (openFileEnsureBeneathNoSymlinks w true t dirFd path flags).1 =
      (openFileEnsureBeneathNoSymlinks w false t' dirFd path flags).1.about path := by
  unfold openFileEnsureBeneathNoSymlinks
  rw [if_pos rfl, if_neg Bool.false_ne_true, openIterative_agrees hw hflags hpath]
  change (match w.openat2 t dirFd path (flagsAdj flags) with
    | .ok i => _
    | .error .loop => _
    | .error e => _ : Opened × Walk).1 = _
  simp only [World.openat2, if_pos hshort, hw.fails, hw.fs, hw.fresh]
  change _ = answer path (do
    let dir ← walkNoSymlinks fs dirFd path.dropLast
    openLast fs fresh (flagsAdj flags) dir (path.getLast?.getD []))
  generalize (do
    let dir ← walkNoSymlinks fs dirFd path.dropLast
    openLast fs fresh (flagsAdj flags) dir (path.getLast?.getD []) : Except Errno Nat) = r
  cases r with
  | ok i => rfl
  | error e => cases e <;> rfl

/-- When nothing changes, a kernel with `openat2` and one without give the same
    descriptor or the same error for a path that a system call takes.  Where
    `openat2` names the whole path, the loop over the components names the path
    of the symbolic link. -/
theorem open_agrees (hw : Still w fs fresh) (hflags : flags.Valid) (t t' dirFd : Nat)
    (hpath : path ≠ []) (hshort : Short path) :
    let direct := (openFileEnsureBeneathNoSymlinks w true t dirFd path flags).1
    let loop := (openFileEnsureBeneathNoSymlinks w false t' dirFd path flags).1
    direct = loop.about path ∧
      ∀ p, loop = .symlinkNotAllowed p →
        p <+: path ∧ ∃ i, lookup fs dirFd p = some i ∧ (fs i).isSymlink = true := by
  refine ⟨openFile_agrees hw hflags t t' dirFd hpath hshort, fun p hp => ?_⟩
  obtain ⟨ hprefix, i, hfinds⟩ := openIterative_names hpath (walkInv_start w t' dirFd path) hp
  rw [show w.fs = fun _ => fs from funext hw.fs] at hfinds
  exact ⟨ hprefix, i, hfinds.lookup⟩

/-- The link is named by the loop, and the path that leads through it by
    `openat2`. -/
theorem open_agrees_linked :
    (openFileEnsureBeneathNoSymlinks Sample.linked true 0 0 [ascii "a", ascii "b"]
      Sample.readOnly).1 = .symlinkNotAllowed [ascii "a", ascii "b"] ∧
    (openFileEnsureBeneathNoSymlinks Sample.linked false 0 0 [ascii "a", ascii "b"]
      Sample.readOnly).1 = .symlinkNotAllowed [ascii "a"] ∧
    ∃ i, lookup (Sample.files 3) 0 [ascii "a"] = some i ∧ (Sample.files 3 i).isSymlink = true := by
  have hopen : (openFileEnsureBeneathNoSymlinks Sample.linked false 0 0 [ascii "a", ascii "b"]
      Sample.readOnly).1 = .symlinkNotAllowed [ascii "a"] := by
    decide +kernel
  obtain ⟨hagrees, hnames⟩ := open_agrees Sample.still_linked Sample.valid_readOnly 0 0 0
    (List.cons_ne_nil (ascii "a") [ascii "b"]) (by decide)
  exact ⟨by rw [hagrees, hopen]; rfl, hopen, (hnames _ hopen).2⟩

end FileSystemAt
end NixStore
