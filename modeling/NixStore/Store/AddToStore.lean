/-
  NixStore.Store.AddToStore

  The local store together with the store directory, and
  `LocalStore::addToStore` (`libstore/local-store.cc`).

  What one process does is modelled here: path locks, which keep other processes
  away, have no effect.  An automatic collection may come before the registration
  (`autoGC`); `addToStore` is the call when none is due, which is what the other
  modules build on.  What changes neither names nor contents is left out:
  canonical metadata, syncing, and replacing files by hard links to equal files.
-/

import NixStore.Store.RefsGraph
import NixStore.Store.References
import NixStore.Util.HashOrder
import NixStore.Util.Restore
import Mathlib.Data.Finmap

namespace NixStore

open Effect OrderedSet Wire

/-- A name that a directory entry can have. -/
abbrev FileName := { name : Bytes // ¬ invalidName name }

/-- A `LocalStore` with the contents of its directory. -/
structure DiskStore extends LocalStore where
  files : Finmap fun _ : FileName => File

/-- What runs on the store and its directory. -/
abbrev DiskM := EStateM Error DiskStore

namespace DiskStore

/-- A new store. -/
def fresh (pathInfoCacheSize : Nat) : DiskStore where
  toLocalStore := LocalStore.fresh pathInfoCacheSize
  files := ∅

/-- Run what only needs the database and the cache. -/
def onStore {α : Type} (x : StoreM α) : DiskM α :=
  zoom (·.toLocalStore) (fun t s => { s with toLocalStore := t }) x

/-- The directory entry of `toRealPath(path)`.  A base name with `/` or NUL
    in it is none. -/
def realName (path : StorePath) : Option FileName :=
  if h : invalidName path.baseName then none else some ⟨path.baseName, h⟩

/-- The tree at `toRealPath(path)`. -/
def tree (s : DiskStore) (path : StorePath) : Option File := (realName path).bind s.files.lookup

/-- `deletePath(toRealPath(path))`. -/
def deletePath (path : StorePath) : DiskM Unit := fun s =>
  match realName path with
  | none => .ok () s
  | some name => .ok () { s with files := s.files.erase name }

/-- Put a tree, if there is one, at a place where nothing is. -/
def place (s : DiskStore) (name : FileName) (tree : Option File) : DiskStore :=
  match tree with
  | none => s
  | some f => { s with files := s.files.insert name f }

/-- `restorePath(toRealPath(path), source)` of an archive: the bytes read. -/
def restorePath (path : StorePath) (source : Bytes) : DiskM Bytes := fun s =>
  match realName path with
  | none => .error (.error s!"opening parent directory of '{showBytes path.baseName}'") s
  | some name =>
      match NixStore.restorePath source with
      | (tree, .ok nar) => .ok nar (s.place name tree)
      | (tree, .error e) => .error e (s.place name tree)

variable (store : StoreDirConfig)

/-- `dumpPath(sourcePath, sink, method)`: what is written to the sink. -/
def dumpFile (method : FileIngestionMethod) (f : File) : Except Error Bytes :=
  match method, f with
  | .flat, .regular _ contents => .ok contents
  | .flat, _ => .error (.error "path is not a regular file")
  | .nixArchive, f => dumpPath NarNode.plain defaultPathFilter f

/-- The check of the NAR hash in `addToStore`. -/
def checkNarHash (info : ValidPathInfo) (nar : Bytes) : Except Error Unit :=
  let hash := (store.hashString .sha256 nar).1
  throwIf (¬ hash.equals info.narHash) (.error
    (s!"hash mismatch importing path '{showBytes (store.printStorePath info.path)}';\n" ++
      s!"  specified: {showBytes (info.narHash.toText .sri true)}\n" ++
      s!"  got:       {showBytes (hash.toText .sri true)}"))

/-- The check of the NAR size. -/
def checkNarSize (info : ValidPathInfo) (nar : Bytes) : Except Error Unit :=
  let numBytesDigested := UInt64.ofNat nar.length
  throwIf (numBytesDigested ≠ info.narSize) (.error
    (s!"size mismatch importing path '{showBytes (store.printStorePath info.path)}';\n" ++
      s!"  specified: {info.narSize}\n  got:       {numBytesDigested}"))

/-- The check of the content address, over the tree just restored. -/
def checkCa (info : ValidPathInfo) (tree : Option File) : Except Error Unit :=
  match info.ca with
  | none => .ok ()
  | some specified => do
      let f ← match tree with
        | some f => pure f
        | none => throw (.invalidPath
            s!"store path '{showBytes (store.printStorePath info.path)}' does not exist")
      let dump ← dumpFile specified.method.getFileIngestionMethod f
      let actual := (store.hashString specified.hash.algo
        (hashModuloInput info.path.hashPart [dump])).1
      throwIf (¬ specified.hash.equals actual) (.error
        (s!"ca hash mismatch importing path '{showBytes (store.printStorePath info.path)}';\n" ++
          s!"  specified: {showBytes (specified.hash.toText .nix32 true)}\n" ++
          s!"  got:       {showBytes (actual.toText .nix32 true)}"))

/-- `repair || !isValidPath(path)`. -/
def wanted (repair : Bool) (path : StorePath) : DiskM Bool :=
  if repair then pure true
  else do
    let valid ← onStore (LocalStore.isValidPath store path)
    pure !valid

/-- `repair || !isValidPathUncached(path)`. -/
def wantedUncached (repair : Bool) (path : StorePath) : DiskM Bool :=
  if repair then pure true
  else do
    let valid ← onStore (LocalStore.isValidPath_ store path)
    pure !valid

/-- `registerValidPath`. -/
def registerValidPath (now : Int) (info : ValidPathInfo) : DiskM Unit :=
  onStore (LocalStore.registerValidPaths store now (.single info))

/-- `invalidatePathInfoCacheFor`. -/
def invalidatePathInfoCacheFor (path : StorePath) : DiskM Unit :=
  modify fun s => { s with pathInfoCache := s.pathInfoCache.erase path }

/-- The three checks of what was restored. -/
def checkImport (info : ValidPathInfo) (nar : Bytes) (tree : Option File) : Except Error Unit := do
  checkNarHash store info nar
  checkNarSize store info nar
  checkCa store info tree

/-- Replace what is at a path by what an archive holds. -/
def unpack (path : StorePath) (source : Bytes) : DiskM Bytes := do
  deletePath path
  restorePath path source

/-- What comes of `autoGC` during a call: whether looking at the free space fails,
    and the paths that the collector comes to delete, none if no collection is due. -/
structure AutoCollection where
  getAvail : Except Error Unit
  dead : List StorePath

/-- There is enough free space. -/
def AutoCollection.notDue : AutoCollection := ⟨.ok (), []⟩

/-- The collector deletes a path, unless it is in use or `root` protects it. -/
def collectDead (root : StorePath) (s : DiskStore) (path : StorePath) : DiskStore :=
  if path.hashPart = root.hashPart then s
  else
    match s.db.invalidatePath (store.printStorePath path) with
    | .error _ => s
    | .ok db =>
        { s with
          db
          pathInfoCache := s.pathInfoCache.erase path
          files :=
            match realName path with
            | none => s.files
            | some name => s.files.erase name }

/-- `autoGC()`, while `root` is a temporary root. -/
def autoGC (gc : AutoCollection) (root : StorePath) : DiskM Unit := do
  fromExcept gc.getAvail
  modify fun s => gc.dead.foldl (collectDead store root) s

/-- What `addToStore` does once it knows that it has to. -/
def importCollecting (gc : AutoCollection) (now : Int) (info : ValidPathInfo) (source : Bytes) :
    DiskM Unit := do
  let nar ← unpack info.path source
  let s ← get
  fromExcept (checkImport store info nar (s.tree info.path))
  autoGC store gc info.path
  registerValidPath store now info

/-- The same when no collection is due. -/
def import_ (now : Int) (info : ValidPathInfo) (source : Bytes) : DiskM Unit :=
  importCollecting store .notDue now info source

/-- The two checks for validity around an import of a path. -/
def addIfWanted (repair : Bool) (path : StorePath) (add : DiskM Unit) : DiskM Unit := do
  if ← wanted store repair path then
    if ← wantedUncached store repair path then add
    else invalidatePathInfoCacheFor path
  else pure ()

/-- `LocalStore::addToStore`, at the time `now`. -/
def addToStoreCollecting (gc : AutoCollection) (now : Int) (info : ValidPathInfo) (source : Bytes)
    (repair : Bool) : DiskM Unit :=
  addIfWanted store repair info.path (importCollecting store gc now info source)

/-- The same when no collection is due. -/
def addToStore (now : Int) (info : ValidPathInfo) (source : Bytes) (repair : Bool) : DiskM Unit :=
  addIfWanted store repair info.path (import_ store now info source)

-- ============================================================================
-- The directory
-- ============================================================================

theorem realName_eq_some {path : StorePath} {name : FileName} :
    realName path = some name ↔ name.1 = path.baseName := by
  unfold realName
  by_cases h : invalidName path.baseName
  · rw [dif_pos h]
    refine ⟨fun heq => (by cases heq), fun heq => absurd h ?_⟩
    rw [← heq]
    exact name.2
  · rw [dif_neg h, Option.some.injEq]
    exact ⟨fun heq => (congrArg Subtype.val heq).symm, fun heq => Subtype.ext heq.symm⟩

theorem realName_inj {p q : StorePath} {name : FileName} (hp : realName p = some name)
    (hq : realName q = some name) : p = q :=
  StorePath.ext' ((realName_eq_some.mp hp).symm.trans (realName_eq_some.mp hq))

/-- A path whose text is read back has a place. -/
theorem realName_ne_none {path : StorePath} (h : LocalStore.Readable path) :
    realName path ≠ none := by
  have hslash := path.not_mem_baseName (by decide) (by decide) h.1
  have hnul := path.not_mem_baseName (by decide) (by decide) h.2
  have hlong : 2 < path.baseName.length := by
    have hlen := (StorePath.checkBaseName_eq_ok.mp path.valid).1
    unfold hashLen at hlen
    omega
  obtain ⟨hne, hdot, hdotdot, -⟩ := StorePath.normalComponent_of_length hlong hslash
  have hvalid : ¬ invalidName path.baseName := by
    rintro (h | h | h | h | h)
    · exact hne h
    · exact hdot h
    · exact hdotdot h
    · exact hslash h
    · exact hnul h
  rw [realName, dif_neg hvalid]
  exact Option.some_ne_none _

/-- A path that has a place can be read back. -/
theorem readable_of_realName {path : StorePath} (h : realName path ≠ none) :
    LocalStore.Readable path := by
  obtain ⟨name, hname⟩ := Option.ne_none_iff_exists'.mp h
  have hvalid := name.2
  rw [realName_eq_some.mp hname] at hvalid
  have hsep := path.separator_mem
  refine ⟨fun heq => hvalid ?_, fun heq => hvalid ?_⟩
  · exact Or.inr (Or.inr (Or.inr (Or.inl (heq ▸ hsep))))
  · exact Or.inr (Or.inr (Or.inr (Or.inr (heq ▸ hsep))))

theorem realName_of_tree {s : DiskStore} {path : StorePath} {f : File} (h : s.tree path = some f) :
    realName path ≠ none := by
  intro hnone
  rw [tree, hnone] at h
  cases h

/-- The trees at all paths after the entry of one of them was replaced. -/
theorem tree_replace {s s' : DiskStore} {path : StorePath} {name : FileName} {new : Option File}
    (hname : realName path = some name) (hnew : s'.files.lookup name = new)
    (hothers : ∀ n, n ≠ name → s'.files.lookup n = s.files.lookup n) (p : StorePath) :
    s'.tree p = if p = path then new else s.tree p := by
  unfold tree
  by_cases hp : p = path
  · rw [if_pos hp, hp, hname]
    exact hnew
  · rw [if_neg hp]
    cases hq : realName p with
    | none => rfl
    | some n =>
        refine hothers n ?_
        rintro rfl
        exact hp (realName_inj hq hname)

theorem lookup_place (s : DiskStore) (name n : FileName) (t : Option File) :
    ((({ s with files := s.files.erase name } : DiskStore).place name t).files.lookup n) =
      if n = name then t else s.files.lookup n := by
  by_cases hn : n = name
  · rw [if_pos hn, hn]
    cases t with
    | none => exact Finmap.lookup_erase _ _
    | some f => exact Finmap.lookup_insert _
  · rw [if_neg hn]
    cases t with
    | none => exact Finmap.lookup_erase_ne hn
    | some f =>
        show ((s.files.erase name).insert name f).lookup n = _
        rw [Finmap.lookup_insert_of_ne _ hn, Finmap.lookup_erase_ne hn]

@[simp] theorem toLocalStore_place (s : DiskStore) (name : FileName) (t : Option File) :
    (s.place name t).toLocalStore = s.toLocalStore := by
  cases t with
  | none => rfl
  | some f => rfl

-- ============================================================================
-- What the steps do
-- ============================================================================

variable {store} {now : Int}

theorem import_steps (info : ValidPathInfo) (source : Bytes) :
    import_ store now info source = (do
      let nar ← unpack info.path source
      let s ← get
      fromExcept (checkImport store info nar (s.tree info.path))
      registerValidPath store now info) := rfl

theorem onStore_spec {α : Type} {x : StoreM α} {s : DiskStore} {Q : α → LocalStore → Prop}
    {E : Error → LocalStore → Prop} (h : Run s.toLocalStore x Q E) :
    Run s (onStore x) (fun a s' => Q a s'.toLocalStore ∧ s'.files = s.files)
      (fun e s' => E e s'.toLocalStore ∧ s'.files = s.files) := by
  rintro _ rfl
  rename_i s
  have hrun := h s.toLocalStore rfl
  unfold onStore zoom
  cases hx : x s.toLocalStore with
  | ok a t =>
      rw [hx] at hrun
      exact ⟨hrun, rfl⟩
  | error e t =>
      rw [hx] at hrun
      exact ⟨hrun, rfl⟩

variable (store) in
/-- Whether `isValidPath` says that a path is valid. -/
def SeemsValid (s : LocalStore) (path : StorePath) : Prop :=
  match s.pathInfoCache.find path with
  | some value => value.isSome = true
  | none => s.db.Valid (store.printStorePath path)

/-- A state that differs in the order of the cache only. -/
structure SameContents (s s' : DiskStore) : Prop where
  db_eq : s'.db = s.db
  find_eq : ∀ k, s'.pathInfoCache.find k = s.pathInfoCache.find k
  files_eq : s'.files = s.files

theorem SameContents.refl (s : DiskStore) : SameContents s s := ⟨rfl, fun _ => rfl, rfl⟩

theorem wanted_outcome (repair : Bool) (path : StorePath) (s : DiskStore) :
    Run s (wanted store repair path)
      (fun b s' => SameContents s s' ∧
        (b = true ↔ repair = true ∨ ¬ SeemsValid store s.toLocalStore path))
      (fun _ _ => False) := by
  unfold wanted
  cases repair with
  | true =>
      refine Spec.ret ?_
      rintro _ rfl
      exact ⟨SameContents.refl _, by simp⟩
  | false =>
      rintro _ rfl
      rename_i s
      simp only [Bool.false_eq_true, if_false, false_or]
      rw [bind_run, onStore, zoom, LocalStore.isValidPath, bind_run, LocalStore.cacheGet,
        LruCache.get_fst]
      have hfind := s.pathInfoCache.find_get path
      unfold SeemsValid
      cases hcached : s.pathInfoCache.find path with
      | some value => exact ⟨⟨rfl, hfind, rfl⟩, by cases value <;> simp⟩
      | none =>
          refine ⟨⟨rfl, hfind, rfl⟩, ?_⟩
          simp only [Bool.not_eq_true']
          rw [← Db.isSome_queryPathInfo, Bool.not_eq_true]

theorem wantedUncached_outcome (repair : Bool) (path : StorePath) (s : DiskStore) :
    Run s (wantedUncached store repair path)
      (fun b s' => s' = s ∧
        (b = true ↔ repair = true ∨ ¬ s.db.Valid (store.printStorePath path)))
      (fun _ _ => False) := by
  unfold wantedUncached
  cases repair with
  | true =>
      refine Spec.ret ?_
      rintro _ rfl
      exact ⟨rfl, by simp⟩
  | false =>
      rintro _ rfl
      rename_i s
      simp only [Bool.false_eq_true, if_false, false_or]
      rw [bind_run, onStore, zoom, LocalStore.isValidPath_]
      refine ⟨rfl, ?_⟩
      simp only [Bool.not_eq_true']
      rw [← Db.isSome_queryPathInfo, Bool.not_eq_true]

/-- What the source left behind is the tree at the path, if the path has a
    place, and nothing else has changed. -/
def Restored (s : DiskStore) (path : StorePath) (source : Bytes) (s' : DiskStore) : Prop :=
  ∀ p, s'.tree p = if p = path ∧ realName path ≠ none then (NixStore.restorePath source).1
    else s.tree p

theorem unpack_outcome (path : StorePath) (source : Bytes) (s : DiskStore) :
    Run s (unpack path source)
      (fun nar s' => s'.toLocalStore = s.toLocalStore ∧ Restored s path source s' ∧
        realName path ≠ none ∧ (NixStore.restorePath source).2 = .ok nar)
      (fun e s' => s'.toLocalStore = s.toLocalStore ∧ Restored s path source s' ∧
        (realName path = none ∨ (NixStore.restorePath source).2 = .error e)) := by
  rintro _ rfl
  rename_i s
  cases hname : realName path with
  | none =>
      have hrun : unpack path source s
          = .error (.error s!"opening parent directory of '{showBytes path.baseName}'") s := by
        rw [unpack, bind_run, deletePath, hname]
        simp only [restorePath, hname]
      rw [hrun]
      exact ⟨rfl, fun p => by simp [hname], Or.inl rfl⟩
  | some name =>
      have hrestored : ∀ t, (NixStore.restorePath source).1 = t →
          Restored s path source (({ s with files := s.files.erase name } : DiskStore).place name t) := by
        intro t ht p
        have hothers : ∀ n, n ≠ name → (({ s with files := s.files.erase name } :
            DiskStore).place name t).files.lookup n = s.files.lookup n :=
          fun n hn => (lookup_place s name n t).trans (if_neg hn)
        rw [tree_replace hname ((lookup_place s name name t).trans (if_pos rfl)) hothers p, ht]
        simp [hname]
      have hunpack : unpack path source s =
          restorePath path source { s with files := s.files.erase name } := by
        rw [unpack, bind_run, deletePath, hname]
      rw [hunpack, restorePath, hname]
      cases hrun : NixStore.restorePath source with
      | mk t r =>
          have ht := hrestored t (by rw [hrun])
          cases r with
          | ok nar => exact ⟨toLocalStore_place _ _ _, ht, by simp, rfl⟩
          | error e => exact ⟨toLocalStore_place _ _ _, ht, Or.inr rfl⟩

variable (store now) in
/-- What a call that imported an info has done. -/
structure Imported (s : DiskStore) (info : ValidPathInfo) (source : Bytes) (s' : DiskStore) :
    Prop where
  restored : ∃ f nar, NixStore.restorePath source = (some f, .ok nar) ∧
    checkImport store info nar (some f) = .ok ()
  tree_eq : Restored s info.path source s'
  named : realName info.path ≠ none
  accepts : LocalStore.Accepts store s.db (.single info)
  cache_eq : s'.pathInfoCache =
    LocalStore.cacheAfter s.pathInfoCache (LocalStore.entered store s.db [info])
  committed : LocalStore.Committed store now s.db (.single info) s'.db

/-- The import returns exactly if the path has a place, the source starts with
    an archive that passes the checks, and the registration is accepted. -/
theorem import_outcome (info : ValidPathInfo) (source : Bytes) (s : DiskStore) :
    Run s (import_ store now info source)
      (fun _ s' => Imported store now s info source s')
      (fun _ s' => s'.db = s.db ∧ Restored s info.path source s' ∧
        ¬ (realName info.path ≠ none ∧ (∃ f nar, NixStore.restorePath source = (some f, .ok nar) ∧
          checkImport store info nar (some f) = .ok ()) ∧
          LocalStore.Accepts store s.db (.single info))) := by
  rw [import_steps]
  refine Spec.seq ((unpack_outcome info.path source s).weaken (fun _ h => h) (fun _ _ h => h) ?_)
    fun nar => Spec.at_state fun s₁ hs₁ => ?_
  · rintro e s' ⟨hlocal, htrees, hwhy⟩
    refine ⟨congrArg LocalStore.db hlocal, htrees, ?_⟩
    rintro ⟨hnamed, ⟨f, nar, hrun, -⟩, -⟩
    rcases hwhy with hnone | herr
    · exact hnamed hnone
    · rw [hrun] at herr
      cases herr
  obtain ⟨hlocal, htrees, hnamed, hnar⟩ := hs₁
  obtain ⟨f, hrun⟩ : ∃ f, NixStore.restorePath source = (some f, .ok nar) := by
    have hpair : NixStore.restorePath source = ((NixStore.restorePath source).1, .ok nar) := by
      rw [← hnar]
    obtain ⟨f, hf, -⟩ := restorePath_eq_ok.mp hpair
    exact ⟨f, by rw [hpair, hf]⟩
  have htree : s₁.tree info.path = some f := by
    rw [htrees info.path, if_pos ⟨rfl, hnamed⟩, hrun]
  refine Spec.seq (Q := fun t s' => t = s₁ ∧ s' = s₁) (fun t ht => ⟨ht, ht⟩) fun t => ?_
  refine Spec.seq (Q := fun _ s' => s' = s₁ ∧ checkImport store info nar (some f) = .ok ())
    (Spec.lift ?_ ?_) fun _ => ?_
  · rintro _ s' hcheck ⟨rfl, rfl⟩
    rw [htree] at hcheck
    exact ⟨rfl, hcheck⟩
  · rintro e s' hcheck ⟨rfl, rfl⟩
    rw [htree] at hcheck
    refine ⟨congrArg LocalStore.db hlocal, htrees, ?_⟩
    rintro ⟨-, ⟨f', nar', hrun', hok⟩, -⟩
    rw [hrun] at hrun'
    cases hrun'
    rw [hcheck] at hok
    cases hok
  · refine Spec.at_state ?_
    rintro s' ⟨rfl, hcheck⟩
    refine (onStore_spec (LocalStore.registerValidPaths_outcome (.single info)
      s'.toLocalStore)).weaken (fun _ h => h) ?_ ?_
    · rintro _ s'' ⟨⟨hacc, hcache, hdb⟩, hfiles⟩
      rw [hlocal] at hacc hcache hdb
      refine ⟨⟨f, nar, hrun, hcheck⟩, fun p => ?_, hnamed, hacc, hcache, hdb⟩
      rw [← htrees p, tree, tree, hfiles]
    · rintro _ s'' ⟨⟨hacc, -, hdb⟩, hfiles⟩
      rw [hlocal] at hacc hdb
      refine ⟨hdb, fun p => ?_, fun h => hacc h.2.2⟩
      rw [← htrees p, tree, tree, hfiles]

-- ============================================================================
-- The outcome of addToStore
-- ============================================================================

theorem SameContents.tree_eq {s s' : DiskStore} (h : SameContents s s') (p : StorePath) :
    s'.tree p = s.tree p := by
  rw [tree, tree, h.files_eq]

variable (store) in
/-- The import is not skipped. -/
def Wanted (s : DiskStore) (path : StorePath) (repair : Bool) : Prop :=
  repair = true ∨
    (¬ SeemsValid store s.toLocalStore path ∧ ¬ s.db.Valid (store.printStorePath path))

variable (store) in
/-- How an import behind the two checks can return, if the import itself goes
    from one state to another by `R`. -/
inductive AddedIf (R : DiskStore → DiskStore → Prop) (s : DiskStore) (path : StorePath)
    (repair : Bool) (s' : DiskStore) : Prop where
  /-- The path counts as valid. -/
  | skipped : repair = false → SeemsValid store s.toLocalStore path → SameContents s s' →
      AddedIf R s path repair s'
  /-- The path is valid after all. -/
  | valid : repair = false → ¬ SeemsValid store s.toLocalStore path →
      s.db.Valid (store.printStorePath path) → s'.db = s.db → s'.files = s.files →
      (∀ k, s'.pathInfoCache.find k = if k = path then none else s.pathInfoCache.find k) →
      AddedIf R s path repair s'
  | imported (s₁ : DiskStore) : Wanted store s path repair → SameContents s s₁ → R s₁ s' →
      AddedIf R s path repair s'

theorem addIfWanted_outcome {add : DiskM Unit} {R : DiskStore → DiskStore → Prop}
    {E : DiskStore → Error → DiskStore → Prop}
    (hadd : ∀ s, Run s add (fun _ s' => R s s') (fun e s' => E s e s')) (path : StorePath)
    (repair : Bool) (s : DiskStore) :
    Run s (addIfWanted store repair path add)
      (fun _ s' => AddedIf store R s path repair s')
      (fun e s' => Wanted store s path repair ∧ ∃ s₁, SameContents s s₁ ∧ E s₁ e s') := by
  unfold addIfWanted
  refine Spec.seq ((wanted_outcome repair path s).weaken (fun _ h => h) (fun _ _ h => h)
    fun _ _ h => h.elim) fun b => Spec.cond ?_ ?_
  · intro hb
    refine Spec.at_state fun s₁ hs₁ => ?_
    obtain ⟨hsame, hiff⟩ := hs₁
    have hwanted := hiff.mp hb
    refine Spec.seq ((wantedUncached_outcome repair path s₁).weaken (fun _ h => h)
      (fun _ _ h => h) fun _ _ h => h.elim) fun b' => Spec.cond ?_ ?_
    · intro hb'
      refine Spec.at_state fun s₂ hs₂ => ?_
      obtain ⟨rfl, hiff'⟩ := hs₂
      have hgo : Wanted store s path repair := by
        rcases hiff'.mp hb' with hrepair | hinvalid
        · exact Or.inl hrepair
        · rw [hsame.db_eq] at hinvalid
          exact hwanted.imp_right fun hseems => ⟨hseems, hinvalid⟩
      refine (hadd s₂).weaken (fun _ h => h) ?_ ?_
      · exact fun _ s' h => .imported s₂ hgo hsame h
      · exact fun _ s' h => ⟨hgo, s₂, hsame, h⟩
    · intro hb'
      rintro s₂ ⟨rfl, hiff'⟩
      have hno := mt hiff'.mpr hb'
      have hrepair : repair = false := by
        cases repair with
        | true => exact absurd (Or.inl rfl) hno
        | false => rfl
      have hvalid : s₂.db.Valid (store.printStorePath path) :=
        not_not.mp fun h => hno (Or.inr h)
      rw [hsame.db_eq] at hvalid
      have hseems : ¬ SeemsValid store s.toLocalStore path :=
        hwanted.resolve_left (by rw [hrepair]; exact Bool.false_ne_true)
      refine .valid hrepair hseems hvalid hsame.db_eq hsame.files_eq fun k => ?_
      by_cases hk : k = path
      · rw [if_pos hk, hk]
        exact LruCache.find_erase_self _ _
      · rw [if_neg hk, ← hsame.find_eq k]
        exact LruCache.find_erase_of_ne _ hk
  · intro hb
    refine Spec.ret ?_
    rintro s₁ ⟨hsame, hiff⟩
    have hno := mt hiff.mpr hb
    refine .skipped ?_ (not_not.mp fun h => hno (Or.inr h)) hsame
    cases repair with
    | true => exact absurd (Or.inl rfl) hno
    | false => rfl

variable (store now) in
/-- How `addToStore` can return. -/
def Added (s : DiskStore) (info : ValidPathInfo) (source : Bytes) (repair : Bool)
    (s' : DiskStore) : Prop :=
  AddedIf store (fun s₁ s' => Imported store now s₁ info source s') s info.path repair s'

theorem addToStore_outcome (info : ValidPathInfo) (source : Bytes) (repair : Bool)
    (s : DiskStore) :
    Run s (addToStore store now info source repair)
      (fun _ s' => Added store now s info source repair s')
      (fun _ s' => Wanted store s info.path repair ∧ s'.db = s.db ∧
        Restored s info.path source s' ∧
        ¬ (realName info.path ≠ none ∧ (∃ f nar, NixStore.restorePath source = (some f, .ok nar) ∧
          checkImport store info nar (some f) = .ok ()) ∧
          LocalStore.Accepts store s.db (.single info))) := by
  refine (addIfWanted_outcome (import_outcome info source) info.path repair s).weaken
    (fun _ h => h) (fun _ _ h => h) ?_
  rintro _ s' ⟨hwanted, s₁, hsame, hdb, htrees, hwhy⟩
  rw [hsame.db_eq] at hdb hwhy
  refine ⟨hwanted, hdb, fun p => ?_, hwhy⟩
  rw [htrees p, hsame.tree_eq]

-- ============================================================================
-- Failed imports
-- ============================================================================

variable (store) in
/-- A path is valid, and its tree has the NAR hash that was registered. -/
def Intact (s : DiskStore) (path : StorePath) : Prop :=
  ∃ row f nar, s.db.queryPathInfo (store.printStorePath path) = some row ∧ s.tree path = some f ∧
    dumpPath NarNode.plain defaultPathFilter f = .ok nar ∧
    LocalStore.readNarHash store path row.hash = .ok (store.hashString .sha256 nar).1

variable (store) in
/-- The same paths are valid, and those that were intact still are. -/
structure Undamaged (s s' : DiskStore) : Prop where
  valid_iff : ∀ t, s'.db.Valid t ↔ s.db.Valid t
  intact : ∀ path, Intact store s path → Intact store s' path

variable (store) in
/-- What restoring a source leaves behind, the whole tree or a part of it, has
    the NAR hash that is registered for the path. -/
def LeavesIntact (s : DiskStore) (path : StorePath) (source : Bytes) : Prop :=
  ∃ row f nar, s.db.queryPathInfo (store.printStorePath path) = some row ∧
    (NixStore.restorePath source).1 = some f ∧
    dumpPath NarNode.plain defaultPathFilter f = .ok nar ∧
    LocalStore.readNarHash store path row.hash = .ok (store.hashString .sha256 nar).1

theorem Intact.valid {s : DiskStore} {path : StorePath} (h : Intact store s path) :
    s.db.Valid (store.printStorePath path) := by
  obtain ⟨row, f, nar, hrow, -⟩ := h
  exact Db.valid_of_query hrow

theorem Intact.named {s : DiskStore} {path : StorePath} (h : Intact store s path) :
    realName path ≠ none := by
  obtain ⟨row, f, nar, -, htree, -⟩ := h
  exact realName_of_tree htree

-- ============================================================================
-- An import with an automatic collection
-- ============================================================================

/-- The store after `unpack`. -/
def unpacked (s : DiskStore) (path : StorePath) (source : Bytes) : DiskStore :=
  match realName path with
  | none => s
  | some name => ({ s with files := s.files.erase name } : DiskStore).place name
      (NixStore.restorePath source).1

theorem final_unpack (path : StorePath) (source : Bytes) (s : DiskStore) :
    final (unpack path source) s = s.unpacked path source := by
  unfold unpacked
  cases hname : realName path with
  | none =>
      have hrun : unpack path source s
          = .error (.error s!"opening parent directory of '{showBytes path.baseName}'") s := by
        rw [unpack, bind_run, deletePath, hname]
        simp only [restorePath, hname]
      rw [final, hrun]
  | some name =>
      have hunpack : unpack path source s =
          restorePath path source { s with files := s.files.erase name } := by
        rw [unpack, bind_run, deletePath, hname]
      rw [final, hunpack, restorePath, hname]
      rcases hrun : NixStore.restorePath source with ⟨t, e | nar⟩
      · rfl
      · rfl

theorem restored_unpacked (s : DiskStore) (path : StorePath) (source : Bytes) :
    Restored s path source (s.unpacked path source) := by
  rw [← final_unpack]
  exact Spec.final_of ((unpack_outcome path source s).weaken (fun _ h => h)
    (fun _ _ h => h.2.1) fun _ _ h => h.2.1)

theorem local_unpacked (s : DiskStore) (path : StorePath) (source : Bytes) :
    (s.unpacked path source).toLocalStore = s.toLocalStore := by
  rw [← final_unpack]
  exact Spec.final_of ((unpack_outcome path source s).weaken (fun _ h => h)
    (fun _ _ h => h.1) fun _ _ h => h.1)

theorem files_unpacked {s t : DiskStore} (h : t.files = s.files) (path : StorePath)
    (source : Bytes) : (t.unpacked path source).files = (s.unpacked path source).files := by
  unfold unpacked
  cases realName path with
  | none => exact h
  | some name =>
      show (DiskStore.place _ _ _).files = (DiskStore.place _ _ _).files
      cases (NixStore.restorePath source).1 with
      | none => exact congrArg (Finmap.erase name) h
      | some f => exact congrArg (fun fs => (Finmap.erase name fs).insert name f) h

/-- States with the same rows and the same files. -/
def SameStored (s t : DiskStore) : Prop := t.db = s.db ∧ t.files = s.files

/-- What is deleted has nothing to do with the cache. -/
theorem SameStored.collect (root : StorePath) (dead : List StorePath) {s t : DiskStore}
    (h : SameStored s t) :
    SameStored (dead.foldl (collectDead store root) s) (dead.foldl (collectDead store root) t) := by
  induction dead generalizing s t with
  | nil => exact h
  | cons path dead ih =>
      refine ih ?_
      unfold collectDead
      by_cases hroot : path.hashPart = root.hashPart
      · rw [if_pos hroot, if_pos hroot]
        exact h
      · rw [if_neg hroot, if_neg hroot, h.1]
        cases s.db.invalidatePath (store.printStorePath path) with
        | error e => exact h
        | ok db =>
            refine ⟨rfl, ?_⟩
            show (match realName path with
              | none => t.files
              | some name => t.files.erase name) = _
            rw [h.2]

/-- The row and the tree of a temporary root stay. -/
theorem collect_root (root : StorePath) (dead : List StorePath) (s : DiskStore) :
    (dead.foldl (collectDead store root) s).db.queryPathInfo (store.printStorePath root)
        = s.db.queryPathInfo (store.printStorePath root) ∧
      (dead.foldl (collectDead store root) s).tree root = s.tree root := by
  induction dead generalizing s with
  | nil => exact ⟨rfl, rfl⟩
  | cons path dead ih =>
      obtain ⟨hrow, htree⟩ := ih (collectDead store root s path)
      rw [List.foldl_cons, hrow, htree]
      unfold collectDead
      by_cases hroot : path.hashPart = root.hashPart
      · rw [if_pos hroot]
        exact ⟨rfl, rfl⟩
      · have hne : root ≠ path := fun heq => hroot (congrArg StorePath.hashPart heq.symm)
        rw [if_neg hroot]
        cases hdb : s.db.invalidatePath (store.printStorePath path) with
        | error e => exact ⟨rfl, rfl⟩
        | ok db =>
            refine ⟨?_, ?_⟩
            · have hquery := Db.queryPathInfo_invalidate hdb (store.printStorePath root)
              rw [if_neg fun heq => hne (store.printStorePath_inj heq)] at hquery
              exact hquery
            · unfold tree
              cases hname : realName path with
              | none => rfl
              | some name =>
                  cases hroot' : realName root with
                  | none => rfl
                  | some n =>
                      refine Finmap.lookup_erase_ne ?_
                      rintro rfl
                      exact hne (realName_inj hroot' hname)

theorem Intact.congr {s t : DiskStore} {path : StorePath} (h : Intact store s path)
    (hrow : t.db.queryPathInfo (store.printStorePath path)
      = s.db.queryPathInfo (store.printStorePath path)) (htree : t.tree path = s.tree path) :
    Intact store t path := by
  obtain ⟨row, f, nar, hrow', htree', hrest⟩ := h
  exact ⟨row, f, nar, hrow.trans hrow', htree.trans htree', hrest⟩

theorem SameStored.undamaged {s t t' : DiskStore} (h : SameStored t t') :
    Undamaged store s t' ↔ Undamaged store s t := by
  have htree : ∀ p, t'.tree p = t.tree p := fun p => by rw [tree, tree, h.2]
  have hrow : ∀ p, t'.db.queryPathInfo p = t.db.queryPathInfo p := fun p => by rw [h.1]
  constructor
  · intro hun
    refine ⟨fun p => ?_, fun path hi => ?_⟩
    · rw [← h.1]
      exact hun.valid_iff p
    · exact (hun.intact path hi).congr (hrow _).symm (htree path).symm
  · intro hun
    refine ⟨fun p => ?_, fun path hi => ?_⟩
    · rw [h.1]
      exact hun.valid_iff p
    · exact (hun.intact path hi).congr (hrow _) (htree path)

theorem Undamaged.trans {s t u : DiskStore} (h : Undamaged store s t) (h' : Undamaged store t u) :
    Undamaged store s u :=
  ⟨fun p => (h'.valid_iff p).trans (h.valid_iff p), fun path hi => h'.intact path (h.intact path hi)⟩

/-- Another path than the one that is imported is as it was. -/
theorem intact_unpacked {s : DiskStore} {path p : StorePath} (source : Bytes) (hp : p ≠ path) :
    Intact store (s.unpacked path source) p ↔ Intact store s p := by
  have hrow : (s.unpacked path source).db = s.db := congrArg LocalStore.db (local_unpacked s path source)
  have htree : (s.unpacked path source).tree p = s.tree p := by
    rw [restored_unpacked, if_neg fun h => hp h.1]
  exact ⟨fun h => h.congr (by rw [hrow]) htree.symm, fun h => h.congr (by rw [hrow]) htree⟩

/-- The restore alone. -/
theorem undamaged_unpacked_iff {s : DiskStore} {path : StorePath} {repair : Bool}
    (hwanted : Wanted store s path repair) (source : Bytes) :
    Undamaged store s (s.unpacked path source) ↔
      (repair = true → Intact store s path → LeavesIntact store s path source) := by
  have hdb : (s.unpacked path source).db = s.db :=
    congrArg LocalStore.db (local_unpacked s path source)
  have htrees := restored_unpacked s path source
  constructor
  · intro hun _ hintact
    obtain ⟨row, f, nar, hrow, htree, hdump, hhash⟩ := hun.intact _ hintact
    rw [htrees, if_pos ⟨rfl, hintact.named⟩] at htree
    rw [hdb] at hrow
    exact ⟨row, f, nar, hrow, htree, hdump, hhash⟩
  · intro hcond
    refine ⟨fun t => by rw [hdb], fun p hintact => ?_⟩
    by_cases hp : p = path
    · subst hp
      -- only a repair gets this far with a path that is valid
      have hrepair : repair = true := by
        rcases hwanted with hrepair | ⟨-, hinvalid⟩
        · exact hrepair
        · exact absurd hintact.valid hinvalid
      obtain ⟨row, f, nar, hrow, htree, hdump, hhash⟩ := hcond hrepair hintact
      refine ⟨row, f, nar, by rw [hdb, hrow], ?_, hdump, hhash⟩
      rw [htrees, if_pos ⟨rfl, hintact.named⟩, htree]
    · exact (intact_unpacked source hp).mpr hintact

/-- What is there behind a collection was there before it. -/
theorem undamaged_split {s : DiskStore} {path : StorePath} {source : Bytes} {dead : List StorePath}
    (hun : Undamaged store s
      (dead.foldl (collectDead store path) (s.unpacked path source))) :
    Undamaged store s (s.unpacked path source) ∧
      Undamaged store (s.unpacked path source)
        (dead.foldl (collectDead store path) (s.unpacked path source)) := by
  have hdb : (s.unpacked path source).db = s.db :=
    congrArg LocalStore.db (local_unpacked s path source)
  obtain ⟨hrow, htree⟩ := collect_root path dead (s.unpacked path source)
  refine ⟨⟨fun t => by rw [hdb], fun p hi => ?_⟩, ⟨fun t => ?_, fun p hi => ?_⟩⟩
  · by_cases hp : p = path
    · subst hp
      exact (hun.intact p hi).congr hrow.symm htree.symm
    · exact (intact_unpacked source hp).mpr hi
  · rw [hdb]
    exact hun.valid_iff t
  · by_cases hp : p = path
    · subst hp
      exact hi.congr hrow htree
    · exact hun.intact p ((intact_unpacked source hp).mp hi)

variable (store) in
/-- The source restores, and what it restores passes the checks. -/
def Importable (info : ValidPathInfo) (source : Bytes) : Prop :=
  realName info.path ≠ none ∧ ∃ f nar, NixStore.restorePath source = (some f, .ok nar) ∧
    checkImport store info nar (some f) = .ok ()

variable (store) in
/-- How an import can fail: in front of the collection, or behind it. -/
inductive FailedImport (gc : AutoCollection) (s : DiskStore) (info : ValidPathInfo)
    (source : Bytes) (s' : DiskStore) : Prop where
  | before : ¬ (Importable store info source ∧ gc.getAvail = .ok ()) →
      SameStored (s.unpacked info.path source) s' → FailedImport gc s info source s'
  | behind : Importable store info source → gc.getAvail = .ok () →
      SameStored (gc.dead.foldl (collectDead store info.path) (s.unpacked info.path source)) s' →
      FailedImport gc s info source s'

theorem importCollecting_outcome (gc : AutoCollection) (info : ValidPathInfo) (source : Bytes)
    (s : DiskStore) :
    Run s (importCollecting store gc now info source) (fun _ _ => True)
      (fun _ s' => FailedImport store gc s info source s') := by
  unfold importCollecting
  -- a failure before the collection leaves the tree that was unpacked so far
  have hunpacked : Run s (unpack info.path source)
      (fun nar s' => s' = s.unpacked info.path source ∧ realName info.path ≠ none ∧
        (NixStore.restorePath source).2 = .ok nar)
      (fun e s' => s' = s.unpacked info.path source ∧
        (realName info.path = none ∨ (NixStore.restorePath source).2 = .error e)) := by
    have hrun := unpack_outcome info.path source s
    rintro _ rfl
    rename_i s
    have hs := hrun s rfl
    have hfinal := final_unpack info.path source s
    unfold final at hfinal
    cases hx : unpack info.path source s with
    | ok nar s' =>
        rw [hx] at hs hfinal
        exact ⟨hfinal, hs.2.2⟩
    | error e s' =>
        rw [hx] at hs hfinal
        exact ⟨hfinal, hs.2.2⟩
  refine Spec.seq (hunpacked.weaken (fun _ h => h) (fun _ _ h => h) ?_) fun nar =>
    Spec.at_state fun s₁ hs₁ => ?_
  · rintro e s' ⟨rfl, hwhy⟩
    refine .before ?_ ⟨rfl, rfl⟩
    rintro ⟨⟨hnamed, f, nar, hrestore, -⟩, -⟩
    rcases hwhy with hnone | herror
    · exact hnamed hnone
    · rw [hrestore] at herror
      cases herror
  obtain ⟨rfl, hnamed, hnar⟩ := hs₁
  obtain ⟨f, hrestore⟩ : ∃ f, NixStore.restorePath source = (some f, .ok nar) := by
    have hpair : NixStore.restorePath source = ((NixStore.restorePath source).1, .ok nar) := by
      rw [← hnar]
    obtain ⟨f, hf, -⟩ := restorePath_eq_ok.mp hpair
    exact ⟨f, by rw [hpair, hf]⟩
  have htree : (s.unpacked info.path source).tree info.path = some f := by
    rw [restored_unpacked s info.path source info.path, if_pos ⟨rfl, hnamed⟩, hrestore]
  -- the checks of the tree
  refine Spec.seq (Q := fun t s' => t = s.unpacked info.path source ∧
    s' = s.unpacked info.path source) (fun t ht => ⟨ht, ht⟩) fun t => ?_
  refine Spec.seq (Q := fun _ s' => s' = s.unpacked info.path source ∧
    Importable store info source) (Spec.lift ?_ ?_) fun _ => ?_
  · rintro _ s' hcheck ⟨rfl, rfl⟩
    rw [htree] at hcheck
    exact ⟨rfl, hnamed, f, nar, hrestore, hcheck⟩
  · rintro e s' hcheck ⟨rfl, rfl⟩
    rw [htree] at hcheck
    refine .before ?_ ⟨rfl, rfl⟩
    rintro ⟨⟨-, f', nar', hrestore', hok⟩, -⟩
    rw [hrestore] at hrestore'
    cases hrestore'
    rw [hcheck] at hok
    cases hok
  refine Spec.at_state ?_
  rintro _ ⟨rfl, hable⟩
  -- the collection; from here on a failure is one behind it
  refine Spec.seq (Q := fun _ s' => gc.getAvail = .ok () ∧
    s' = gc.dead.foldl (collectDead store info.path) (s.unpacked info.path source)) ?_ fun _ => ?_
  · refine Spec.seq (Q := fun _ s' => gc.getAvail = .ok () ∧
      s' = s.unpacked info.path source) (Spec.lift ?_ ?_) fun _ => ?_
    · exact fun _ _ hok hs => ⟨hok, hs⟩
    · rintro e s' hfails rfl
      refine .before ?_ ⟨rfl, rfl⟩
      rintro ⟨-, hok⟩
      rw [hfails] at hok
      cases hok
    · rintro _ ⟨hok, rfl⟩
      exact ⟨hok, rfl⟩
  · refine Spec.at_state ?_
    rintro _ ⟨hok, rfl⟩
    refine (onStore_spec (LocalStore.registerValidPaths_outcome (.single info) _)).weaken
      (fun _ h => h) (fun _ _ _ => trivial) ?_
    rintro _ s' ⟨⟨-, -, hdb⟩, hfiles⟩
    exact .behind hable hok ⟨hdb, hfiles⟩

variable (store) in
/-- A failed import damages nothing exactly if it was not to repair a path that
    was intact from a source that leaves something else behind, and no collection
    in front of the registration takes anything valid away. -/
theorem addToStore_undamaged_iff (gc : AutoCollection) (now : Int) (info : ValidPathInfo)
    (source : Bytes) (repair : Bool) (s s' : DiskStore) (e : Error)
    (h : addToStoreCollecting store gc now info source repair s = .error e s') :
    Undamaged store s s' ↔
      (repair = true → Intact store s info.path → LeavesIntact store s info.path source) ∧
      (Importable store info source → gc.getAvail = .ok () →
        Undamaged store (s.unpacked info.path source)
          (gc.dead.foldl (collectDead store info.path) (s.unpacked info.path source))) := by
  obtain ⟨hwanted, s₁, hsame, hfailed⟩ := (addIfWanted_outcome
    (importCollecting_outcome gc info source) info.path repair s).of_error rfl h
  have hstored : SameStored (s.unpacked info.path source) (s₁.unpacked info.path source) := by
    refine ⟨?_, files_unpacked hsame.files_eq info.path source⟩
    rw [local_unpacked, local_unpacked, hsame.db_eq]
  have hunpacked := undamaged_unpacked_iff hwanted source
  cases hfailed with
  | before hwhy hs' =>
      rw [hs'.undamaged, hstored.undamaged, hunpacked]
      exact ⟨fun hcond => ⟨hcond, fun hable hok => absurd ⟨hable, hok⟩ hwhy⟩, And.left⟩
  | behind hable hok hs' =>
      rw [hs'.undamaged, (hstored.collect info.path gc.dead).undamaged, ← hunpacked]
      exact ⟨fun hun => undamaged_split hun |>.imp_right fun h _ _ => h,
        fun hboth => hboth.1.trans (hboth.2 hable hok)⟩

namespace Sample

open LocalStore.Sample (pathA info first)

/-- The directory entry of the first sample path. -/
def nameA : FileName := ⟨pathA.baseName, by decide +kernel⟩

theorem validName_pathB : ¬ invalidName LocalStore.Sample.pathB.baseName := by decide +kernel

/-- A store directory with an empty file at that path. -/
def stored (s : LocalStore) : DiskStore where
  toLocalStore := s
  files := Finmap.singleton nameA (.regular false [])

theorem realName_pathA : realName pathA = some nameA := realName_eq_some.mpr rfl

/-- The path is registered, with the NAR hash of the empty file. -/
theorem stored_intact :
    ∃ s, LocalStore.registerValidPaths LocalStore.Sample.store 1 first (LocalStore.fresh 10) = .ok () s ∧
      Intact LocalStore.Sample.store (stored s) pathA := by
  have hreturns : Effect.returns (LocalStore.registerValidPaths LocalStore.Sample.store 1 first
      (LocalStore.fresh 10)) = true := by decide +kernel
  obtain ⟨⟨⟩, s, hrun⟩ := Effect.ok_of_returns hreturns
  obtain ⟨-, -, hdb⟩ :=
    (LocalStore.registerValidPaths_outcome first (LocalStore.fresh 10)).of_ok rfl hrun
  have hnew : ¬ (LocalStore.fresh 10).db.Valid
      (LocalStore.Sample.store.printStorePath pathA) := by
    rintro ⟨r, hr, -⟩
    exact absurd hr List.not_mem_nil
  obtain ⟨id, hrow⟩ := hdb.added (info pathA ∅) (List.mem_singleton.mpr rfl) hnew
  refine ⟨s, hrun, _, .regular false [], _, hrow, ?_, rfl, ?_⟩
  · rw [tree, realName_pathA]
    exact Finmap.lookup_singleton_eq
  · exact LocalStore.readNarHash_column pathA (info pathA ∅)

/-- Nothing can be restored from an empty source. -/
theorem restorePath_nil : NixStore.restorePath [] = (none, .error .endOfFile) := rfl

/-- An import from an empty source throws unless it is skipped. -/
theorem addToStore_nil_fails (s : DiskStore) (repair : Bool)
    (h : Wanted LocalStore.Sample.store s pathA repair) :
    ∃ e s', addToStore LocalStore.Sample.store 1 (info pathA ∅) [] repair s = .error e s' := by
  cases hrun : addToStore LocalStore.Sample.store 1 (info pathA ∅) [] repair s with
  | error e s' => exact ⟨e, s', rfl⟩
  | ok u s' =>
      cases (addToStore_outcome (info pathA ∅) [] repair s).of_ok rfl hrun with
      | skipped hrepair hseems =>
          rcases h with h | ⟨h, -⟩
          · rw [hrepair] at h
            cases h
          · exact absurd hseems h
      | valid hrepair _ hvalid =>
          rcases h with h | ⟨-, h⟩
          · rw [hrepair] at h
            cases h
          · exact absurd hvalid h
      | imported s₁ _ _ himported =>
          obtain ⟨f, nar, hrestore, -⟩ := himported.restored
          rw [restorePath_nil] at hrestore
          cases hrestore

end Sample

/-- Importing from an empty source into an empty store. -/
theorem addToStore_undamaged_fresh :
    ∃ e s', addToStoreCollecting LocalStore.Sample.store .notDue 1
        (LocalStore.Sample.info LocalStore.Sample.pathA ∅) [] false (fresh 10) = .error e s' ∧
      (Undamaged LocalStore.Sample.store (fresh 10) s' ↔
        (false = true → Intact LocalStore.Sample.store (fresh 10) LocalStore.Sample.pathA →
          LeavesIntact LocalStore.Sample.store (fresh 10) LocalStore.Sample.pathA []) ∧
        (Importable LocalStore.Sample.store
            (LocalStore.Sample.info LocalStore.Sample.pathA ∅) [] →
          AutoCollection.notDue.getAvail = .ok () →
          Undamaged LocalStore.Sample.store
            ((fresh 10).unpacked LocalStore.Sample.pathA [])
            (AutoCollection.notDue.dead.foldl
              (collectDead LocalStore.Sample.store LocalStore.Sample.pathA)
              ((fresh 10).unpacked LocalStore.Sample.pathA [])))) := by
  have hnew : ¬ (fresh 10).db.Valid
      (LocalStore.Sample.store.printStorePath LocalStore.Sample.pathA) := by
    rintro ⟨r, hr, -⟩
    exact absurd hr List.not_mem_nil
  obtain ⟨e, s', hrun⟩ := Sample.addToStore_nil_fails (fresh 10) false (Or.inr ⟨hnew, hnew⟩)
  exact ⟨e, s', hrun,
    addToStore_undamaged_iff LocalStore.Sample.store .notDue 1 _ [] false (fresh 10) s' e hrun⟩

/-- Repairing a path that is intact from an empty source: the call throws and
    the tree is gone. -/
theorem addToStore_repair_damages :
    ∃ s e s', addToStore LocalStore.Sample.store 1
        (LocalStore.Sample.info LocalStore.Sample.pathA ∅) [] true s = .error e s' ∧
      ¬ Undamaged LocalStore.Sample.store s s' := by
  obtain ⟨s, -, hintact⟩ := Sample.stored_intact
  obtain ⟨e, s', hrun⟩ := Sample.addToStore_nil_fails (Sample.stored s) true (Or.inl rfl)
  refine ⟨_, e, s', hrun, fun hun => ?_⟩
  obtain ⟨-, -, htrees, -⟩ :=
    (addToStore_outcome _ [] true _).of_error rfl hrun
  obtain ⟨row, f, nar, -, htree, -⟩ := hun.intact _ hintact
  rw [htrees, if_pos ⟨rfl, hintact.named⟩, Sample.restorePath_nil] at htree
  cases htree

end DiskStore
end NixStore
