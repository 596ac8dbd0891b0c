/-
  NixStore.Store.OptimiseAlone

  `optimiseStore` (`libstore/optimise-store.cc`) on a store that nobody else
  uses: what each call of a worker can do then.

  A link that is there has the contents of the files that hash to its name, so
  the calls that take a corrupted link away do not happen.  A file below a path
  is changed by the thread of the path only.
-/

import NixStore.Store.LinkFarm
import NixStore.Store.VerifyPaths

namespace NixStore

open Effect OrderedSet Wire

-- ============================================================================
-- optimiseStore
-- ============================================================================

namespace LocalStore

variable (store : StoreDirConfig)

/-- The paths that the loop of `optimiseStore` enqueues. -/
def enqueue : List StorePath → StoreM (List StorePath)
  | [] => pure []
  | i :: rest => do
      let valid ← isValidPath store i
      let queue ← enqueue rest
      pure (if valid then i :: queue else queue)

/-- The paths that `optimiseStore` goes over. -/
def pathsToOptimise : StoreM (List StorePath) := do
  let paths ← queryAllValidPaths store
  enqueue store (inOrder paths)

/-- The cache does not contradict the database about which paths are valid. -/
def KnowsValid (s : LocalStore) : Prop :=
  ∀ p v, s.pathInfoCache.find p = some v →
    (v.isSome = true ↔ s.db.Valid (store.printStorePath p))

variable {store}

theorem isValidPath_known (db : Db) (path : StorePath) :
    Spec (fun s => s.db = db ∧ KnowsValid store s) (isValidPath store path)
      (fun valid s => (s.db = db ∧ KnowsValid store s) ∧
        (valid = true ↔ db.Valid (store.printStorePath path)))
      (fun _ _ => False) := by
  have hget : Spec (fun s => s.db = db ∧ KnowsValid store s) (cacheGet path)
      (fun found s => (s.db = db ∧ KnowsValid store s) ∧ ∀ v, found = some v →
        (v.isSome = true ↔ db.Valid (store.printStorePath path))) (fun _ _ => False) := by
    rintro s ⟨rfl, hknows⟩
    refine ⟨⟨rfl, fun p v hp => ?_⟩, fun v hv => ?_⟩
    · exact hknows p v ((s.pathInfoCache.find_get path p).symm.trans hp)
    · exact hknows path v ((s.pathInfoCache.get_fst path).symm.trans hv)
  refine Spec.seq hget fun found => ?_
  cases found with
  | some v => exact Spec.ret fun s hs => ⟨hs.1, hs.2 v rfl⟩
  | none =>
      intro s hs
      refine ⟨hs.1, ?_⟩
      rw [← hs.1.1]
      exact Db.isSome_queryPathInfo

theorem enqueue_known (db : Db) (l : List StorePath) :
    Spec (fun s => s.db = db ∧ KnowsValid store s) (enqueue store l)
      (fun queue _ => queue.Sublist l ∧
        ∀ p, p ∈ queue ↔ p ∈ l ∧ db.Valid (store.printStorePath p))
      (fun _ _ => False) := by
  induction l with
  | nil => exact Spec.ret fun s _ => ⟨List.Sublist.refl _, fun p => by simp⟩
  | cons i rest ih =>
      refine Spec.seq (isValidPath_known db i) fun valid => Spec.given fun hvalid => ?_
      refine Spec.seq ih fun queue => Spec.ret ?_
      rintro s ⟨hsub, hmem⟩
      cases valid with
      | true =>
          refine ⟨hsub.cons_cons i, fun p => ?_⟩
          rw [if_pos rfl, List.mem_cons, List.mem_cons, hmem]
          constructor
          · rintro (rfl | ⟨hp, hv⟩)
            · exact ⟨.inl rfl, hvalid.mp rfl⟩
            · exact ⟨.inr hp, hv⟩
          · rintro ⟨rfl | hp, hv⟩
            · exact .inl rfl
            · exact .inr ⟨hp, hv⟩
      | false =>
          refine ⟨hsub.cons i, fun p => ?_⟩
          rw [if_neg Bool.false_ne_true, List.mem_cons, hmem]
          constructor
          · rintro ⟨hp, hv⟩
            exact ⟨.inr hp, hv⟩
          · rintro ⟨rfl | hp, hv⟩
            · exact absurd (hvalid.mpr hv) Bool.false_ne_true
            · exact ⟨hp, hv⟩

/-- The paths are the valid ones, each once. -/
theorem mem_pathsToOptimise {st st' : LocalStore} {paths : List StorePath}
    (hknows : KnowsValid store st) (h : pathsToOptimise store st = .ok paths st') :
    paths.Nodup ∧ ∀ p, p ∈ paths ↔ st.db.Valid (store.printStorePath p) := by
  obtain ⟨V, t, hquery, henqueue⟩ := Effect.bind_eq_ok.mp h
  rw [queryAllValidPaths, onDb] at hquery
  cases hV : readStorePaths store (st.db.validPaths.map fun r => r.path) with
  | error e =>
      rw [hV] at hquery
      cases hquery
  | ok S =>
      rw [hV] at hquery
      cases hquery
      obtain ⟨hsub, hmem⟩ := (enqueue_known st.db (inOrder V)).of_ok ⟨rfl, hknows⟩ henqueue
      refine ⟨hsub.nodup (nodup_inOrder V), fun p => (hmem p).trans ?_⟩
      refine ⟨fun hp => hp.2, fun hvalid => ⟨mem_inOrder.mpr ?_, hvalid⟩⟩
      obtain ⟨q, hq, hparse⟩ := (readStorePaths_eq_ok.mp hV).1 _ (List.mem_map.mpr hvalid)
      rw [← ((parse_cString_print store.toStoreDir p q).mp hparse).2]
      exact hq

end LocalStore

namespace Optimising

/-- `loadInodeHash`, where `readdir` of the links directory returns these
    entries. -/
def loadInodeHash (entries : List (Bytes × Nat)) : List Nat := entries.map Prod.snd

/-- `optimiseStore` before its pool starts.  Each path has a thread of its own:
    a pool with fewer takes a path when another is done. -/
def optimiseStore (fs : StoreFs) (inodeHash : List Nat) (paths : List StorePath) : Optimising where
  fs
  buffered _ := []
  inodeHash _ := inodeHash
  optimisers n := {
    pid := 0
    repair := false
    fileHashes := fun _ => none
    todo := (paths[n]?.map fun i => [i.baseName]).toList
    pc := .next
    filesLinked := 0
    bytesFreed := 0 }
  dedups _ := none
  unused := none

/-- All threads are done, and none has thrown. -/
def Returned (s : Optimising) : Prop :=
  ∀ n, (s.optimisers n).pc = .next ∧ (s.optimisers n).todo = []

-- ============================================================================
-- The file system
-- ============================================================================

/-- What is below a path is in directories. -/
def TreeShaped (fs : StoreFs) : Prop :=
  ∀ path name, path ≠ [] → fs.names (.store (path ++ [name])) ≠ none →
    fs.names (.store path) = some .directory ∧ name ≠ ascii "." ∧ name ≠ ascii ".."

/-- What `readdir` returns for the links directory: besides the links only
    inodes that are not those of files. -/
def ListsFarm (fs : StoreFs) (entries : List (Bytes × Nat)) : Prop :=
  ∀ e ∈ entries, (∃ h, fs.names (.farm h) = some (.object e.2)) ∨
    ∀ k, fs.names k ≠ some (.object e.2)

/-- What `readdir` returns for a directory: all its entries with their inodes;
    no directory has the inode of a file, nor that of the links directory. -/
structure Lists (fs : StoreFs) (inodeHash : List Nat) (path : NodePath)
    (entries : List (Bytes × Nat)) : Prop where
  files : ∀ name i, fs.names (.store (path ++ [name])) = some (.object i) → (name, i) ∈ entries
  directories : ∀ name, fs.names (.store (path ++ [name])) = some .directory →
    ∃ i, i ∉ inodeHash ∧ (name, i) ∈ entries

/-- A call of a worker while nobody else uses the store: no link count is at its
    limit, and a name is taken or missing only where it is. -/
def Alone (s : Optimising) : OptimiseAct → Prop
  | .optimise n ans =>
      (∀ e, ans.fault = some e → e = .noSpace ∨ e = .other) ∧
      ∀ path rest, (s.optimisers n).pc = .next → (s.optimisers n).todo = path :: rest →
        s.fs.names (.store path) = some .directory →
        Lists s.fs (s.inodeHash (s.optimisers n).pid) path ans.entries
  | _ => False

/-- The links directory takes another link. -/
def Roomy (s : Optimising) : OptimiseAct → Prop
  | .optimise n ans => ∀ v, (s.optimisers n).pc = .addLink v → ans.fault ≠ some .noSpace
  | _ => True

/-- A regular file that is not empty and that its owner cannot write to. -/
def Shareable (x : StoreInode) : Prop :=
  x.writable = false ∧
    ∃ executable contents, x.object = .regular executable contents ∧ contents ≠ []

/-- What one pass has achieved for the paths of a database. -/
structure Converged (store : StoreDirConfig) (canLinkSymlink : Bool) (db : Db) (s : Optimising) :
    Prop where
  /-- Files with the same contents are the farm entry for their hash. -/
  shared : ∀ p q k l i j,
    db.Valid (store.printStorePath p) → db.Valid (store.printStorePath q) →
    s.fs.names (.store (p.baseName :: k)) = some (.object i) →
    s.fs.names (.store (q.baseName :: l)) = some (.object j) →
    Shareable (s.fs.inodes i) → Shareable (s.fs.inodes j) →
    (s.fs.inodes i).object = (s.fs.inodes j).object →
    i = j ∧ ∃ h, hashPath store (s.fs.inodes i).object = .ok h ∧
      s.fs.names (.farm h) = some (.object i)
  /-- Another pass links nothing and frees nothing. -/
  again : ∀ st paths st' entries t, st.db = db → LocalStore.KnowsValid store st →
    LocalStore.pathsToOptimise store st = .ok paths st' →
    (optimising store canLinkSymlink
      (optimiseStore s.fs (loadInodeHash entries) paths)).Reachable Alone t →
    ∀ n, (t.optimisers n).filesLinked = 0 ∧ (t.optimisers n).bytesFreed = 0

variable {store : StoreDirConfig} {canLinkSymlink : Bool} {s₀ s s' : Optimising}

-- ============================================================================
-- Calls of the workers
-- ============================================================================

/-- An inode is that of a link in the farm. -/
def Farmed (s : Optimising) (i : Nat) : Prop := ∃ h, s.fs.names (.farm h) = some (.object i)

/-- A file is left alone for what it is. -/
def Exempt (canLinkSymlink : Bool) (x : StoreInode) : Prop :=
  match x.object with
  | .regular _ contents => x.writable = true ∨ contents = []
  | .symlink _ => canLinkSymlink = false

/-- Nothing is left to do for an inode. -/
def Done (canLinkSymlink : Bool) (s : Optimising) (i : Nat) : Prop :=
  s.Farmed i ∨ Exempt canLinkSymlink (s.fs.inodes i)

/-- What `lstat` said is still so. -/
structure Stands (fs : StoreFs) (path : NodePath) (st : Stat) : Prop where
  name : fs.names (.store path) = some (.object st.ino)
  size : st.size = (fs.inodes st.ino).object.size

/-- What a thread has found is still so. -/
def Knows (fs : StoreFs) : OptimisePc → Prop
  | .next | .threw => True
  | .hash path st => Stands fs path st
  | .lookup v | .addLink v => Stands fs v.path v.st
  | .compare _ _ | .unlink _ => False
  | .again v | .link v => Stands fs v.path v.st ∧ fs.names (.farm v.hash) ≠ none
  | .rename v counter => Stands fs v.path v.st ∧ ∃ i,
      fs.names (.farm v.hash) = some (.object i) ∧
      fs.names (.tempLink 0 counter) = some (.object i)
  | .remove _ _ e => e ≠ .tooManyLinks

end Optimising

/-- The file that a thread has begun with. -/
def OptimisePc.begun : OptimisePc → Option NodePath
  | .hash path _ => some path
  | pc => pc.visit.map Visit.path

/-- A thread has not done with a path, and will not if it has thrown. -/
def Optimiser.Owes (o : Optimiser) (k : NodePath) : Prop :=
  (∃ q ∈ o.todo, q <+: k) ∨ o.pc.begun = some k ∨ o.pc = .threw

namespace Optimising

variable {store : StoreDirConfig} {canLinkSymlink : Bool} {s₀ s s' : Optimising}

/-- What a call of a worker can do when nobody else uses the store. -/
inductive Advance (canLinkSymlink : Bool) (s : Optimising) (o : Optimiser)
    (entries : List (Bytes × Nat)) : OptimiseStep → Prop where
  | opened {path : NodePath} {rest : List NodePath} : o.pc = .next → o.todo = path :: rest →
      s.fs.names (.store path) = some .directory →
      Advance canLinkSymlink s o entries ⟨s.fs, s.inodeHash 0, { o with
        todo := (readDirectoryIgnoringInodes entries (s.inodeHash 0)).map
          (fun name => path ++ [name]) ++ rest }⟩
  | left {path : NodePath} {rest : List NodePath} {i : Nat} : o.pc = .next →
      o.todo = path :: rest → s.fs.names (.store path) = some (.object i) →
      Done canLinkSymlink s i →
      Advance canLinkSymlink s o entries ⟨s.fs, s.inodeHash 0, { o with todo := rest }⟩
  | found {path : NodePath} {rest : List NodePath} {st : Stat} : o.pc = .next →
      o.todo = path :: rest → Stands s.fs path st →
      Advance canLinkSymlink s o entries
        ⟨s.fs, s.inodeHash 0, { o with todo := rest, pc := .hash path st }⟩
  | goes {pc : OptimisePc} : o.pc.begun ≠ none → pc.begun = o.pc.begun → Knows s.fs pc →
      Advance canLinkSymlink s o entries ⟨s.fs, s.inodeHash 0, { o with pc }⟩
  | leaves {path : NodePath} {i : Nat} : o.pc.begun = some path →
      s.fs.names (.store path) = some (.object i) → s.Farmed i →
      Advance canLinkSymlink s o entries ⟨s.fs, s.inodeHash 0, { o with pc := .next }⟩
  | throws {fs : StoreFs} :
      (fs = s.fs ∨ ∃ counter, fs = s.fs.unlink (.tempLink o.pid counter)) →
      Advance canLinkSymlink s o entries ⟨fs, s.inodeHash 0, { o with pc := .threw }⟩
  | added {v : Visit} : o.pc = .addLink v → Stands s.fs v.path v.st →
      s.fs.names (.farm v.hash) = none →
      Advance canLinkSymlink s o entries ⟨s.fs.copyName (.store v.path) (.farm v.hash),
        v.st.ino :: s.inodeHash 0, { o with pc := .next }⟩
  | linked {v : Visit} {counter i : Nat} : o.pc = .link v → Stands s.fs v.path v.st →
      s.fs.names (.farm v.hash) = some (.object i) →
      Advance canLinkSymlink s o entries
        ⟨s.fs.copyName (.farm v.hash) (.tempLink o.pid counter), s.inodeHash 0,
          { o with pc := .rename v counter }⟩
  | renamed {v : Visit} {counter i filesLinked bytesFreed : Nat} {fs : StoreFs} :
      o.pc = .rename v counter → s.fs.names (.farm v.hash) = some (.object i) →
      fs.names (.store v.path) = some (.object i) →
      (∀ k, k ≠ .store v.path → k ≠ .tempLink o.pid counter → fs.names k = s.fs.names k) →
      Advance canLinkSymlink s o entries
        ⟨fs, s.inodeHash 0, { o with pc := .next, filesLinked, bytesFreed }⟩

theorem maybeLstat_object {fs : StoreFs} {k : Location} {nlink : Nat} {st : Stat}
    (h : maybeLstat fs k nlink = some st) (htype : st.type ≠ .directory) :
    fs.names k = some (.object st.ino) ∧ st.size = (fs.inodes st.ino).object.size ∧
      st.type = (fs.inodes st.ino).object.type ∧ st.writable = (fs.inodes st.ino).writable := by
  unfold maybeLstat at h
  split at h
  · cases h
  · cases h
    exact absurd rfl htype
  · next i hi =>
      cases h
      exact ⟨hi, rfl, rfl, rfl⟩

theorem maybeLstat_directory {fs : StoreFs} {k : Location} {nlink : Nat} {st : Stat}
    (h : maybeLstat fs k nlink = some st) (htype : st.type = .directory) :
    fs.names k = some .directory := by
  unfold maybeLstat at h
  split at h
  · cases h
  · next hk => exact hk
  · next i hi =>
      cases h
      cases hobject : (fs.inodes i).object with
      | regular executable contents =>
          rw [hobject] at htype
          cases htype
      | symlink target =>
          rw [hobject] at htype
          cases htype

/-- A file that is skipped needs nothing, if the known inodes are in the farm. -/
theorem done_of_skipped {path : NodePath} {nlink : Nat} {inodeHash : List Nat} {st : Stat}
    (hst : maybeLstat s.fs (.store path) nlink = some st) (htype : st.type ≠ .directory)
    (hknown : st.ino ∈ inodeHash → s.Farmed st.ino)
    (h : skipped canLinkSymlink inodeHash st = true) : Done canLinkSymlink s st.ino := by
  obtain ⟨-, hsize, htype', hwritable⟩ := maybeLstat_object hst htype
  simp only [skipped, decide_eq_true_eq] at h
  rcases h with ⟨hsymlink, hcannot⟩ | ⟨hregular, hw⟩ | ⟨hregular, hzero⟩ | ⟨-, hmem⟩
  · right
    unfold Exempt
    rw [htype'] at hsymlink
    cases hobject : (s.fs.inodes st.ino).object with
    | regular executable contents =>
        rw [hobject] at hsymlink
        cases hsymlink
    | symlink target => exact hcannot
  · right
    unfold Exempt
    rw [htype'] at hregular
    cases hobject : (s.fs.inodes st.ino).object with
    | regular executable contents => exact .inl (hwritable.symm.trans hw)
    | symlink target =>
        rw [hobject] at hregular
        cases hregular
  · right
    unfold Exempt
    rw [htype'] at hregular
    rw [hsize] at hzero
    cases hobject : (s.fs.inodes st.ino).object with
    | regular executable contents =>
        rw [hobject] at hzero
        exact .inr (List.length_eq_zero_iff.mp hzero)
    | symlink target =>
        rw [hobject] at hregular
        cases hregular
  · exact .inl (hknown hmem)

-- ============================================================================
-- Invariant
-- ============================================================================

/-- What holds while the workers are at work. -/
structure Converging (store : StoreDirConfig) (canLinkSymlink : Bool) (s₀ : Optimising)
    (paths : List StorePath) (s : Optimising) : Prop where
  inv : Inv store canLinkSymlink s₀ s
  settled : s.Settled
  plain : ∀ n, (s.optimisers n).pid = 0 ∧ (s.optimisers n).repair = false
  /-- A file with a known inode is in the farm. -/
  known : ∀ i ∈ s.inodeHash 0, ∀ k, s.fs.names (.store k) = some (.object i) → s.Farmed i
  /-- A thread keeps to its path. -/
  own : ∀ n k, (k ∈ (s.optimisers n).todo ∨ (s.optimisers n).pc.begun = some k) →
    ∃ p, paths[n]? = some p ∧ k.head? = some p.baseName
  knows : ∀ n, Knows s.fs (s.optimisers n).pc
  covered : ∀ n p k i, paths[n]? = some p →
    s.fs.names (.store (p.baseName :: k)) = some (.object i) →
    Done canLinkSymlink s i ∨ (s.optimisers n).Owes (p.baseName :: k)

variable {paths : List StorePath}

namespace Converging

theorem knows_at (h : Converging store canLinkSymlink s₀ paths s) {n : Nat} {pc : OptimisePc}
    (hpc : (s.optimisers n).pc = pc) : Knows s.fs pc := hpc ▸ h.knows n

/-- The link for the hash of a file holds the same as the file. -/
theorem farm_object (h : Converging store canLinkSymlink s₀ paths s)
    (hfree : CollisionFree store s₀) {n i : Nat} {v : Visit}
    (hv : (s.optimisers n).pc.visit = some v) (hstands : Stands s.fs v.path v.st)
    (hi : s.fs.names (.farm v.hash) = some (.object i)) :
    (s.fs.inodes i).object = (s.fs.inodes v.st.ino).object := by
  obtain ⟨o, hshown, -, hhash⟩ := h.inv.hashed n v hv
  obtain ⟨hclosed, hcomplete⟩ := h.inv.kept.farm_unique hfree hi hshown hhash
  obtain ⟨j, hj, hcomplete'⟩ := h.inv.kept.shown_object hshown
  cases hstands.name.symm.trans hj
  rw [h.inv.kept.object_eq hclosed, h.inv.kept.object_eq (h.settled.1 v.st.ino), hcomplete,
    hcomplete']

/-- A link in the farm is a file. -/
theorem farm_file (h : Converging store canLinkSymlink s₀ paths s) {hash : Hash}
    (hne : s.fs.names (.farm hash) ≠ none) : ∃ i, s.fs.names (.farm hash) = some (.object i) := by
  obtain ⟨e, he⟩ := Option.ne_none_iff_exists'.mp hne
  obtain ⟨i, rfl, -⟩ := h.inv.kept.farm hash e he
  exact ⟨i, he⟩

end Converging

/-- What `create_hard_link` does when a name is taken or missing only where it
    is. -/
theorem createHardLink_alone {fs : StoreFs} {src dst : Location} {fault : Option Errno} {i : Nat}
    (hsrc : fs.names src = some (.object i))
    (hfault : ∀ e, fault = some e → e = .noSpace ∨ e = .other) :
    (fs.names dst = none ∧ createHardLink fs src dst fault = .ok (fs.copyName src dst)) ∨
    (fs.names dst ≠ none ∧ createHardLink fs src dst fault = .error .exist) ∨
    ∃ e, fault = some e ∧ (e = .noSpace ∨ e = .other) ∧
      createHardLink fs src dst fault = .error e := by
  unfold createHardLink
  cases fault with
  | some e => exact .inr (.inr ⟨e, rfl, hfault e rfl, rfl⟩)
  | none =>
      have hmay : fs.isObject src = true := Fs.isObject_iff.mpr ⟨i, hsrc⟩
      have hne : fs.names src ≠ none := by
        rw [hsrc]
        exact nofun
      simp only [if_neg hne, Fs.link]
      by_cases hdst : fs.names dst = none
      · left
        refine ⟨hdst, ?_⟩
        rw [if_pos ⟨hmay, hdst⟩]
      · right
        left
        refine ⟨hdst, ?_⟩
        rw [if_neg fun hboth => hdst hboth.2]

/-- A rename changes its two names only. -/
theorem names_rename {fs fs' : StoreFs} {src dst : Location} (h : fs.rename src dst = some fs') :
    fs'.names dst = fs.names src ∧ ∀ k, k ≠ dst → k ≠ src → fs'.names k = fs.names k := by
  unfold Fs.rename at h
  split at h
  · cases h
    split
    · next hsame => exact ⟨hsame, fun _ _ _ => rfl⟩
    · next hdiffer =>
        have hne : dst ≠ src := fun heq => hdiffer (by rw [heq])
        refine ⟨?_, fun k hdst hsrc => ?_⟩
        · rw [Fs.names_unlink, if_neg hne, Fs.names_copyName, if_pos rfl]
        · rw [Fs.names_unlink, if_neg hsrc, Fs.names_copyName, if_neg hdst]
  · cases h

-- ============================================================================
-- Each call advances
-- ============================================================================

namespace Converging

variable {n : Nat} {ans : Answer} {x : OptimiseStep}

/-- The call that a thread makes. -/
theorem advance_next (h : Converging store canLinkSymlink s₀ paths s)
    (hpc : (s.optimisers n).pc = .next)
    (hx : optimisePathStep store canLinkSymlink ⟨s.fs, s.inodeHash 0, s.optimisers n⟩ ans
      = some x) :
    Advance canLinkSymlink s (s.optimisers n) ans.entries x := by
  simp only [optimisePathStep, hpc] at hx
  split at hx
  · cases hx
  · next path rest htodo =>
      split at hx
      · cases hx
        exact .throws (.inl rfl)
      · next st hst =>
          split at hx
          · next htype =>
              cases hx
              rw [← hpc]
              exact .opened hpc htodo (maybeLstat_directory hst htype)
          · next htype =>
              obtain ⟨hname, hsize, -⟩ := maybeLstat_object hst htype
              split at hx
              · next hskip =>
                  cases hx
                  rw [← hpc]
                  refine .left hpc htodo hname (done_of_skipped hst htype (fun hmem => ?_) hskip)
                  exact h.known st.ino hmem _ hname
              · cases hx
                exact .found hpc htodo ⟨hname, hsize⟩

theorem advance_hash (h : Converging store canLinkSymlink s₀ paths s) {path : NodePath} {st : Stat}
    (hpc : (s.optimisers n).pc = .hash path st)
    (hx : optimisePathStep store canLinkSymlink ⟨s.fs, s.inodeHash 0, s.optimisers n⟩ ans
      = some x) :
    Advance canLinkSymlink s (s.optimisers n) ans.entries x := by
  have hstands : Stands s.fs path st := h.knows_at hpc
  simp only [optimisePathStep, hpc] at hx
  split at hx
  · cases hx
    refine .goes ?_ ?_ hstands
    · rw [hpc]
      exact Option.some_ne_none _
    · rw [hpc]
      rfl
  · cases hx
    exact .throws (.inl rfl)

theorem advance_lookup (h : Converging store canLinkSymlink s₀ paths s)
    (hfree : CollisionFree store s₀) {v : Visit} (hpc : (s.optimisers n).pc = .lookup v)
    (hx : optimisePathStep store canLinkSymlink ⟨s.fs, s.inodeHash 0, s.optimisers n⟩ ans
      = some x) :
    Advance canLinkSymlink s (s.optimisers n) ans.entries x := by
  have hstands : Stands s.fs v.path v.st := h.knows_at hpc
  have hvisit : (s.optimisers n).pc.visit = some v := by rw [hpc]; rfl
  have hbegun : (s.optimisers n).pc.begun = some v.path := by rw [hpc]; rfl
  have hne : (s.optimisers n).pc.begun ≠ none := by rw [hbegun]; exact Option.some_ne_none _
  simp only [optimisePathStep, hpc] at hx
  split at hx
  · cases hx
    exact .goes hne hbegun.symm hstands
  · next stLink hst =>
      obtain ⟨i, hi⟩ := h.farm_file fun hnone => by
        rw [maybeLstat, hnone] at hst
        cases hst
      have hlink : stLink.ino = i ∧ stLink.size = (s.fs.inodes i).object.size := by
        rw [maybeLstat, hi] at hst
        cases hst
        exact ⟨rfl, rfl⟩
      have hsame : v.st.size = stLink.size := by
        rw [hstands.size, hlink.2, h.farm_object hfree hvisit hstands hi]
      rw [if_neg (fun hdiffer => hdiffer hsame)] at hx
      split at hx
      · next hrepair => exact absurd ((h.plain n).2.symm.trans hrepair) Bool.false_ne_true
      split at hx
      · next hino =>
          cases hx
          refine .leaves hbegun hstands.name ⟨v.hash, ?_⟩
          rw [hino, hlink.1]
          exact hi
      · cases hx
        have hknows : Knows s.fs (.link v) := ⟨hstands, by rw [hi]; exact Option.some_ne_none _⟩
        exact .goes hne hbegun.symm hknows

theorem advance_addLink (h : Converging store canLinkSymlink s₀ paths s) {v : Visit}
    (hpc : (s.optimisers n).pc = .addLink v)
    (hfault : ∀ e, ans.fault = some e → e = .noSpace ∨ e = .other)
    (hroomy : ans.fault ≠ some .noSpace)
    (hx : optimisePathStep store canLinkSymlink ⟨s.fs, s.inodeHash 0, s.optimisers n⟩ ans
      = some x) :
    Advance canLinkSymlink s (s.optimisers n) ans.entries x := by
  have hstands : Stands s.fs v.path v.st := h.knows_at hpc
  have hbegun : (s.optimisers n).pc.begun = some v.path := by rw [hpc]; rfl
  have hne : (s.optimisers n).pc.begun ≠ none := by rw [hbegun]; exact Option.some_ne_none _
  simp only [optimisePathStep, hpc] at hx
  rcases @createHardLink_alone _ _ (.farm v.hash) _ _ hstands.name hfault with
    ⟨hnone, hcall⟩ | ⟨hexists, hcall⟩ | ⟨e, he, hor, hcall⟩
  · rw [hcall] at hx
    cases hx
    exact .added hpc hstands hnone
  · rw [hcall] at hx
    cases hx
    exact .goes hne hbegun.symm ⟨hstands, hexists⟩
  · rw [hcall] at hx
    rcases hor with rfl | rfl
    · exact absurd he hroomy
    · cases hx
      exact .throws (.inl rfl)

theorem advance_again (h : Converging store canLinkSymlink s₀ paths s) {v : Visit}
    (hpc : (s.optimisers n).pc = .again v)
    (hx : optimisePathStep store canLinkSymlink ⟨s.fs, s.inodeHash 0, s.optimisers n⟩ ans
      = some x) :
    Advance canLinkSymlink s (s.optimisers n) ans.entries x := by
  obtain ⟨hstands, hexists⟩ : Stands s.fs v.path v.st ∧ s.fs.names (.farm v.hash) ≠ none :=
    h.knows_at hpc
  have hbegun : (s.optimisers n).pc.begun = some v.path := by rw [hpc]; rfl
  have hne : (s.optimisers n).pc.begun ≠ none := by rw [hbegun]; exact Option.some_ne_none _
  obtain ⟨i, hi⟩ := h.farm_file hexists
  simp only [optimisePathStep, hpc, maybeLstat, hi] at hx
  split at hx
  · next hino =>
      cases hx
      refine .leaves hbegun hstands.name ⟨v.hash, ?_⟩
      rw [hino]
      exact hi
  · cases hx
    exact .goes hne hbegun.symm ⟨hstands, hexists⟩

theorem advance_link (h : Converging store canLinkSymlink s₀ paths s) {v : Visit}
    (hpc : (s.optimisers n).pc = .link v)
    (hfault : ∀ e, ans.fault = some e → e = .noSpace ∨ e = .other)
    (hx : optimisePathStep store canLinkSymlink ⟨s.fs, s.inodeHash 0, s.optimisers n⟩ ans
      = some x) :
    Advance canLinkSymlink s (s.optimisers n) ans.entries x := by
  obtain ⟨hstands, hexists⟩ : Stands s.fs v.path v.st ∧ s.fs.names (.farm v.hash) ≠ none :=
    h.knows_at hpc
  obtain ⟨i, hi⟩ := h.farm_file hexists
  simp only [optimisePathStep, hpc] at hx
  rcases @createHardLink_alone _ _ (.tempLink (s.optimisers n).pid ans.counter) _ _ hi hfault with
    ⟨-, hcall⟩ | ⟨-, hcall⟩ | ⟨e, -, hor, hcall⟩
  · rw [hcall] at hx
    cases hx
    exact .linked hpc hstands hi
  · rw [hcall] at hx
    cases hx
    exact .throws (.inl rfl)
  · rw [hcall] at hx
    rcases hor with rfl | rfl
    all_goals
      cases hx
      exact .throws (.inl rfl)

theorem advance_rename (h : Converging store canLinkSymlink s₀ paths s) {v : Visit} {counter : Nat}
    (hpc : (s.optimisers n).pc = .rename v counter)
    (hfault : ∀ e, ans.fault = some e → e = .noSpace ∨ e = .other)
    (hx : optimisePathStep store canLinkSymlink ⟨s.fs, s.inodeHash 0, s.optimisers n⟩ ans
      = some x) :
    Advance canLinkSymlink s (s.optimisers n) ans.entries x := by
  obtain ⟨hstands, i, hi, htemp⟩ : Stands s.fs v.path v.st ∧ ∃ i,
      s.fs.names (.farm v.hash) = some (.object i) ∧
      s.fs.names (.tempLink 0 counter) = some (.object i) := h.knows_at hpc
  have hbegun : (s.optimisers n).pc.begun = some v.path := by rw [hpc]; rfl
  have hne : (s.optimisers n).pc.begun ≠ none := by rw [hbegun]; exact Option.some_ne_none _
  rw [← (h.plain n).1] at htemp
  simp only [optimisePathStep, hpc] at hx
  split at hx
  · next fs _ hrename =>
      cases hx
      obtain ⟨hname, hothers⟩ := names_rename hrename
      exact .renamed hpc hi (hname.trans htemp) hothers
  · cases hx
    refine .goes hne hbegun.symm ?_
    show ans.fault.getD .noEntry ≠ .tooManyLinks
    cases hans : ans.fault with
    | none => decide
    | some e =>
        rcases hfault e hans with rfl | rfl
        · decide
        · decide

theorem advance_remove (h : Converging store canLinkSymlink s₀ paths s) {v : Visit} {counter : Nat}
    {e : Errno} (hpc : (s.optimisers n).pc = .remove v counter e)
    (hx : optimisePathStep store canLinkSymlink ⟨s.fs, s.inodeHash 0, s.optimisers n⟩ ans
      = some x) :
    Advance canLinkSymlink s (s.optimisers n) ans.entries x := by
  have hother : e ≠ .tooManyLinks := h.knows_at hpc
  simp only [optimisePathStep, hpc, if_neg hother] at hx
  cases hx
  exact .throws (.inr ⟨counter, rfl⟩)

/-- Whatever a worker calls, it advances. -/
theorem advance (h : Converging store canLinkSymlink s₀ paths s) (hfree : CollisionFree store s₀)
    (halone : s.Alone (.optimise n ans)) (hroomy : s.Roomy (.optimise n ans))
    (hx : optimisePathStep store canLinkSymlink ⟨s.fs, s.inodeHash 0, s.optimisers n⟩ ans
      = some x) :
    Advance canLinkSymlink s (s.optimisers n) ans.entries x := by
  cases hpc : (s.optimisers n).pc with
  | next => exact h.advance_next hpc hx
  | hash path st => exact h.advance_hash hpc hx
  | lookup v => exact h.advance_lookup hfree hpc hx
  | compare v stLink => exact (h.knows_at hpc).elim
  | unlink v => exact (h.knows_at hpc).elim
  | addLink v => exact h.advance_addLink hpc halone.1 (hroomy v hpc) hx
  | again v => exact h.advance_again hpc hx
  | link v => exact h.advance_link hpc halone.1 hx
  | rename v counter => exact h.advance_rename hpc halone.1 hx
  | remove v counter e => exact h.advance_remove hpc hx
  | threw =>
      simp only [optimisePathStep, hpc] at hx
      cases hx

end Converging

-- ============================================================================
-- What is below a path
-- ============================================================================

/-- What is above something is a directory. -/
theorem TreeShaped.directory {fs : StoreFs} (h : TreeShaped fs) {path q : NodePath}
    (hpath : path ≠ []) (hq : q ≠ []) (hname : fs.names (.store (path ++ q)) ≠ none) :
    fs.names (.store path) = some .directory := by
  induction q using List.reverseRecOn with
  | nil => exact absurd rfl hq
  | append_singleton q name ih =>
      rw [← List.append_assoc] at hname
      obtain ⟨hdirectory, -⟩ := h (path ++ q) name (List.append_ne_nil_of_left_ne_nil hpath q) hname
      cases q with
      | nil =>
          rw [List.append_nil] at hdirectory
          exact hdirectory
      | cons name' q =>
          refine ih (List.cons_ne_nil _ _) ?_
          rw [hdirectory]
          exact nofun

namespace Converging

/-- The tree keeps its shape. -/
theorem treeShaped (h : Converging store canLinkSymlink s₀ paths s) (htree : TreeShaped s₀.fs) :
    TreeShaped s.fs := by
  intro path name hpath hname
  have hold : s₀.fs.names (.store (path ++ [name])) ≠ none := by
    rcases h.inv.kept.fresh _ hname with hold | ⟨m, d₀, hd₀, -⟩
    · exact hold
    · obtain ⟨d, hd, -⟩ := h.inv.keys m d₀ hd₀
      cases (h.settled.2 m).symm.trans hd
  obtain ⟨hdirectory, hdots⟩ := htree path name hpath hold
  refine ⟨?_, hdots⟩
  have hstays := h.inv.kept.stays path (by rw [hdirectory]; exact nofun)
  rw [shown, hdirectory] at hstays
  obtain ⟨e, he, hshows⟩ := Option.map_eq_some_iff.mp hstays
  cases e with
  | directory => exact he
  | object i => cases hshows

/-- The paths of a thread are not empty. -/
theorem ne_nil (h : Converging store canLinkSymlink s₀ paths s) {n : Nat} {k : NodePath}
    (hk : k ∈ (s.optimisers n).todo) : k ≠ [] := by
  rintro rfl
  obtain ⟨p, -, hhead⟩ := h.own n [] (.inl hk)
  cases hhead

/-- A file below a path that is not a directory is the path. -/
theorem eq_of_isPrefix (h : Converging store canLinkSymlink s₀ paths s) (htree : TreeShaped s₀.fs)
    {n i j : Nat} {path k : NodePath} (hmem : path ∈ (s.optimisers n).todo) (hle : path <+: k)
    (hk : s.fs.names (.store k) = some (.object j))
    (hpath : s.fs.names (.store path) = some (.object i)) : k = path := by
  obtain ⟨q, rfl⟩ := hle
  cases q with
  | nil => exact List.append_nil path
  | cons name q =>
      have hdirectory := (h.treeShaped htree).directory (h.ne_nil hmem) (List.cons_ne_nil name q)
        (by rw [hk]; exact nofun)
      cases hpath.symm.trans hdirectory

/-- Each file in a directory is known, or in what the thread will go over. -/
theorem listed (h : Converging store canLinkSymlink s₀ paths s) (htree : TreeShaped s₀.fs)
    {n j : Nat} {path k : NodePath} {entries : List (Bytes × Nat)}
    (hmem : path ∈ (s.optimisers n).todo) (hle : path <+: k)
    (hk : s.fs.names (.store k) = some (.object j))
    (hpath : s.fs.names (.store path) = some .directory)
    (hlists : Lists s.fs (s.inodeHash 0) path entries) :
    s.Farmed j ∨ ∃ q ∈ (readDirectoryIgnoringInodes entries (s.inodeHash 0)).map
      (fun name => path ++ [name]), q <+: k := by
  obtain ⟨q, rfl⟩ := hle
  have hlisted : ∀ name i, (name, i) ∈ entries → i ∉ s.inodeHash 0 →
      s.fs.names (.store (path ++ [name])) ≠ none →
      path ++ [name] ∈ (readDirectoryIgnoringInodes entries (s.inodeHash 0)).map
        fun name => path ++ [name] := by
    intro name i hentry hnew hname
    obtain ⟨-, hdot, hdots⟩ := h.treeShaped htree path name (h.ne_nil hmem) hname
    refine List.mem_map.mpr ⟨name, List.mem_map.mpr ⟨(name, i), ?_, rfl⟩, rfl⟩
    exact List.mem_filter.mpr ⟨hentry, decide_eq_true ⟨hnew, hdot, hdots⟩⟩
  cases q with
  | nil =>
      rw [List.append_nil] at hk
      cases hk.symm.trans hpath
  | cons name q =>
      have hcons : path ++ name :: q = (path ++ [name]) ++ q := by
        rw [List.append_assoc, List.singleton_append]
      rw [hcons] at hk ⊢
      cases q with
      | nil =>
          rw [List.append_nil] at hk ⊢
          by_cases hknown : j ∈ s.inodeHash 0
          · exact .inl (h.known j hknown _ hk)
          · right
            refine ⟨path ++ [name], ?_, List.prefix_refl _⟩
            exact hlisted name j (hlists.files name j hk) hknown (by rw [hk]; exact nofun)
      | cons name' q =>
          have hdirectory := (h.treeShaped htree).directory
            (List.append_ne_nil_of_left_ne_nil (h.ne_nil hmem) [name])
            (List.cons_ne_nil name' q) (by rw [hk]; exact nofun)
          obtain ⟨i, hnew, hentry⟩ := hlists.directories name hdirectory
          right
          refine ⟨path ++ [name], ?_, List.prefix_append _ _⟩
          exact hlisted name i hentry hnew (by rw [hdirectory]; exact nofun)

end Converging

end Optimising

end NixStore
