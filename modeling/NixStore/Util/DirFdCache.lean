/-
  NixStore.Util.DirFdCache

  The cache of directory descriptors of `PosixDirectorySourceAccessor` changes
  nothing but the number of system calls, as long as the file system stays as it
  is (`cache_transparent`): whatever is evicted from it, and whoever evicts it.
  The number of cached descriptors is always what the accessors of the process
  hold, and within the limit but for one path (`fd_count`).
-/

import NixStore.Lib.Effect
import NixStore.Util.AccessorCalls

namespace NixStore
namespace PosixAccessor

open FileSystemAt Related

-- ============================================================================
-- Resolution when nothing changes
-- ============================================================================

section Resolution

variable {w : World} {fs : Files} {fresh dirFd dir d : Nat} {path : NodePath}

theorem walkNoSymlinks_cons {name : Bytes} {rest : NodePath} (hname : nameAt fs dir name = .ok d)
    (hdir : (fs d).isDirectory = true) :
    walkNoSymlinks fs dir (name :: rest) = walkNoSymlinks fs d rest := by
  rw [walkNoSymlinks, hname]
  cases hd : fs d with
  | directory _ => simp only [hd]
  | symlink _ | object _ =>
      rw [hd] at hdir
      cases hdir

theorem walkNoSymlinks_append (p q : NodePath) :
    walkNoSymlinks fs dir (p ++ q) =
      (walkNoSymlinks fs dir p).bind fun i => walkNoSymlinks fs i q := by
  induction p generalizing dir with
  | nil => rfl
  | cons name rest ih =>
      rw [List.cons_append, walkNoSymlinks, walkNoSymlinks]
      cases nameAt fs dir name with
      | error e => rfl
      | ok i =>
          simp only
          cases fs i with
          | directory _ => exact ih
          | symlink _ | object _ => rfl

theorem walkNoSymlinks_of_leads {t₀ t : Nat} (hw : Still w fs fresh)
    (hl : Leads w.fs t₀ dir path t d) : walkNoSymlinks fs dir path = .ok d := by
  induction hl with
  | here => rfl
  | down _ _ hchild hdir ih =>
      rw [hw.fs] at hchild hdir
      rw [walkNoSymlinks_append, ih]
      exact walkNoSymlinks_cons (nameAt_eq_ok.mpr hchild) hdir

/-- The path up to the first symbolic link. -/
def linkIn (fs : Files) : Nat → NodePath → NodePath
  | _, [] => []
  | dir, name :: rest =>
      match nameAt fs dir name with
      | .error _ => [name]
      | .ok i =>
          match fs i with
          | .directory _ => name :: linkIn fs i rest
          | _ => [name]

theorem linkIn_cons {name : Bytes} {rest : NodePath} (hname : nameAt fs dir name = .ok d)
    (hdir : (fs d).isDirectory = true) :
    linkIn fs dir (name :: rest) = name :: linkIn fs d rest := by
  rw [linkIn, hname]
  cases hd : fs d with
  | directory _ => simp only [hd]
  | symlink _ | object _ =>
      rw [hd] at hdir
      cases hdir

theorem linkIn_append {p : NodePath} (q : NodePath) (hp : walkNoSymlinks fs dir p = .ok d) :
    linkIn fs dir (p ++ q) = p ++ linkIn fs d q := by
  induction p generalizing dir with
  | nil =>
      cases hp
      rfl
  | cons name rest ih =>
      rw [walkNoSymlinks] at hp
      rw [List.cons_append, linkIn, List.cons_append]
      cases hname : nameAt fs dir name with
      | error e =>
          rw [hname] at hp
          cases hp
      | ok i =>
          rw [hname] at hp
          simp only at hp ⊢
          cases hi : fs i with
          | directory entries =>
              rw [hi] at hp
              rw [ih hp]
          | symlink _ | object _ =>
              rw [hi] at hp
              cases hp

/-- A directory that is opened below another one. -/
def opened (fs : Files) (haveOpenat2 : Bool) (dirFd : Nat) (path : NodePath) : Opened :=
  match walkNoSymlinks fs dirFd path with
  | .ok i => .fd i
  | .error .loop => .symlinkNotAllowed (if haveOpenat2 then path else linkIn fs dirFd path)
  | .error e => .failed e

variable (dirFd) in
/-- The loop over the components. -/
theorem openIterative_directory (hw : Still w fs fresh) {rest : NodePath} (hrest : rest ≠ [])
    (st : Walk) :
    (openIterative w dirFd directoryFlags rest st).1 =
      match walkNoSymlinks fs (st.getParentFd dirFd) rest with
      | .ok i => .fd i
      | .error .loop =>
          .symlinkNotAllowed (st.currentRelPath ++ linkIn fs (st.getParentFd dirFd) rest)
      | .error e => .failed e := by
  induction rest generalizing st with
  | nil => exact absurd rfl hrest
  | cons component rest ih =>
      -- the last component is opened like the others
      have hlast : openLast fs fresh { directoryFlags with noFollow := true }
          (st.getParentFd dirFd) component =
          openLast fs fresh innerFlags (st.getParentFd dirFd) component := by
        rw [openLast_inner]
        unfold openLast
        cases hname : nameAt fs (st.getParentFd dirFd) component with
        | error e => rcases nameAt_eq_error hname with rfl | rfl <;> rfl
        | ok i =>
            simp only [Except.bind]
            cases fs i <;> rfl
      have hdiagnose : ∀ e, openLast fs fresh innerFlags (st.getParentFd dirFd) component =
          .error e →
          diagnose w dirFd st component e =
            match walkNoSymlinks fs (st.getParentFd dirFd) (component :: rest) with
            | .ok i => .fd i
            | .error .loop => .symlinkNotAllowed
                (st.currentRelPath ++ linkIn fs (st.getParentFd dirFd) (component :: rest))
            | .error e => .failed e := by
        intro e he
        rw [openLast_inner] at he
        unfold walkNoSymlinks linkIn
        cases hname : nameAt fs (st.getParentFd dirFd) component with
        | error e' =>
            rw [hname] at he
            cases he
            rcases nameAt_eq_error hname with rfl | rfl
            · rfl
            · simp only [diagnose, hw.maybeFstatat_none _ hname]
        | ok i =>
            rw [hname] at he
            simp only [Except.bind] at he
            cases hi : fs i with
            | directory _ =>
                rw [hi] at he
                cases he
            | symlink _ | object _ =>
                rw [hi] at he
                cases he
                simp only [diagnose, hw.maybeFstatat _ hname, hi]
      have hok : ∀ i, openLast fs fresh innerFlags (st.getParentFd dirFd) component = .ok i →
          nameAt fs (st.getParentFd dirFd) component = .ok i ∧ (fs i).isDirectory = true := by
        intro i hi
        rw [openLast_inner] at hi
        cases hname : nameAt fs (st.getParentFd dirFd) component with
        | error e' =>
            rw [hname] at hi
            cases hi
        | ok j =>
            rw [hname] at hi
            simp only [Except.bind] at hi
            split at hi
            · next hdir =>
                cases hi
                exact ⟨rfl, hdir⟩
            · cases hi
      cases rest with
      | nil =>
          unfold openIterative
          rw [hw.openat, hlast]
          cases hopen : openLast fs fresh innerFlags (st.getParentFd dirFd) component with
          | error e => exact hdiagnose e hopen
          | ok i =>
              obtain ⟨hname, hdir⟩ := hok i hopen
              rw [walkNoSymlinks_cons hname hdir]
              rfl
      | cons next rest =>
          unfold openIterative
          rw [hw.openat]
          cases hopen : openLast fs fresh innerFlags (st.getParentFd dirFd) component with
          | error e => exact hdiagnose e hopen
          | ok i =>
              obtain ⟨hname, hdir⟩ := hok i hopen
              simp only
              rw [ih (List.cons_ne_nil _ _)]
              rw [walkNoSymlinks_cons hname hdir, linkIn_cons hname hdir]
              simp only [Walk.getParentFd, Option.getD_some, List.append_assoc,
                List.singleton_append]

variable (dirFd) in
/-- What is opened when nothing changes, if `openat2` takes the path. -/
theorem openFile_directory (hw : Still w fs fresh) (haveOpenat2 : Bool) (t : Nat)
    (hpath : path ≠ []) (hshort : haveOpenat2 = true → Short path) :
    (openFileEnsureBeneathNoSymlinks w haveOpenat2 t dirFd path directoryFlags).1 =
      opened fs haveOpenat2 dirFd path := by
  have hiterative := openIterative_directory dirFd hw hpath (Walk.start t)
  cases haveOpenat2 with
  | false => exact hiterative
  | true =>
      rw [openFile_agrees hw ⟨rfl, fun h => (by cases h), fun h => by cases h⟩ t t dirFd hpath
        (hshort rfl)]
      change (openIterative w dirFd directoryFlags path (Walk.start t)).1.about path = _
      rw [hiterative]
      unfold opened
      change Opened.about path (match walkNoSymlinks fs dirFd path with
        | .ok i => .fd i
        | .error .loop => .symlinkNotAllowed ([] ++ linkIn fs dirFd path)
        | .error e => .failed e) = _
      cases walkNoSymlinks fs dirFd path with
      | ok i => rfl
      | error e => cases e <;> rfl

/-- When nothing changes, it does not matter when a path is opened. -/
theorem openIterative_time (hw : Still w fs fresh) (flags : OpenFlags) (rest : NodePath)
    {st st' : Walk} (hparent : st.parentFd = st'.parentFd)
    (hpath : st.currentRelPath = st'.currentRelPath) :
    (openIterative w dirFd flags rest st).1 = (openIterative w dirFd flags rest st').1 := by
  have hfd : st.getParentFd dirFd = st'.getParentFd dirFd := by
    unfold Walk.getParentFd
    rw [hparent]
  have hdiagnose : ∀ name e, diagnose w dirFd st name e = diagnose w dirFd st' name e := by
    intro name e
    unfold diagnose
    rw [hfd, hpath]
    simp only [World.maybeFstatat, hw.fails, hw.fs]
  induction rest generalizing st st' with
  | nil => rfl
  | cons component rest ih =>
      cases rest with
      | nil =>
          unfold openIterative
          rw [hw.openat, hw.openat, hfd]
          split
          · rfl
          · exact hdiagnose _ _
      | cons next rest =>
          unfold openIterative
          rw [hw.openat, hw.openat, hfd]
          split
          · exact hdiagnose _ _
          · refine ih rfl (by simp only [hpath]) rfl fun name e => ?_
            unfold diagnose
            simp only [Walk.getParentFd, Option.getD_some, hpath, World.maybeFstatat, hw.fails,
              hw.fs]

theorem openFile_time (hw : Still w fs fresh) (haveOpenat2 : Bool) (flags : OpenFlags)
    (t t' : Nat) :
    (openFileEnsureBeneathNoSymlinks w haveOpenat2 t dirFd path flags).1 =
      (openFileEnsureBeneathNoSymlinks w haveOpenat2 t' dirFd path flags).1 := by
  unfold openFileEnsureBeneathNoSymlinks
  split
  · simp only [World.openat2, hw.fails, hw.fs, hw.fresh]
    split <;> rfl
  · exact openIterative_time hw flags path rfl rfl

end Resolution

-- ============================================================================
-- What the caches may do
-- ============================================================================

/-- An accessor but for its cache. -/
def Process.base (p : Process) (a : Nat) : Option AccessorBase :=
  (p.accessor a).map Accessor.toAccessorBase

/-- The cached descriptors are those that the paths lead to. -/
def CacheOk (fs : Files) (acc : Accessor) : Prop :=
  ∀ cache, acc.dirFdCache = some cache → ∀ path fd, cache.find path = some fd →
    walkNoSymlinks fs acc.dirFd path = .ok fd

def Process.Ok (fs : Files) (p : Process) : Prop := ∀ a acc, p.accessor a = some acc → CacheOk fs acc

/-- Only caches and counters have changed, and the caches are still right. -/
structure Recached (fs : Files) (p p' : Process) : Prop where
  length : p'.accessors.length = p.accessors.length
  base : ∀ a, p'.base a = p.base a
  ok : p.Ok fs → p'.Ok fs

variable {fs : Files} {p p' q : Process} {a : Nat}

theorem Recached.refl : Recached fs p p := ⟨rfl, fun _ => rfl, id⟩

theorem Recached.trans (h : Recached fs p p') (h' : Recached fs p' q) : Recached fs p q :=
  ⟨h'.length.trans h.length, fun a => (h'.base a).trans (h.base a), fun hok => h'.ok (h.ok hok)⟩

theorem getAccessor_of_base {base : AccessorBase} (h : p.base a = some base) :
    getAccessor a p = .ok base p := by
  obtain ⟨acc, hacc, rfl⟩ := Option.map_eq_some_iff.mp h
  unfold getAccessor
  rw [hacc]

/-- A cache changes. -/
theorem Recached.adjust {f : Accessor → Accessor}
    (hbase : ∀ acc, (f acc).toAccessorBase = acc.toAccessorBase)
    (hok : ∀ acc, p.accessor a = some acc → CacheOk fs acc → CacheOk fs (f acc)) :
    Recached fs p (p.adjust a f) where
  length := length_adjust f
  base b := by
    unfold Process.base
    rw [accessor_adjust]
    split
    · rw [Option.map_map]
      congr 1
      funext acc
      exact hbase acc
    · rfl
  ok h b acc hacc := by
    rw [accessor_adjust] at hacc
    split at hacc
    · next hab =>
        subst hab
        obtain ⟨acc', hacc', rfl⟩ := Option.map_eq_some_iff.mp hacc
        exact hok acc' hacc' (h a acc' hacc')
    · exact h b acc hacc

theorem cacheOk_emptied (acc : Accessor) : CacheOk fs acc.emptied := by
  intro cache hcache path fd hfind
  obtain ⟨cache', -, rfl⟩ := Option.map_eq_some_iff.mp hcache
  rw [LruCache.find_empty] at hfind
  cases hfind

/-- Eviction empties some of the caches. -/
theorem evictFrom_spec (limit : Nat) (l : List (Option Accessor)) (count b : Nat) :
    (evictFrom limit l count).1.length = l.length ∧
      ((evictFrom limit l count).1[b]? = l[b]? ∨
        (evictFrom limit l count).1[b]? = l[b]?.map (Option.map Accessor.emptied)) := by
  induction l generalizing count b with
  | nil => exact ⟨rfl, Or.inl rfl⟩
  | cons accessor rest ih =>
      unfold evictFrom
      split
      · exact ⟨rfl, Or.inl rfl⟩
      · cases accessor with
        | none =>
            refine ⟨congrArg Nat.succ (ih count b).1, ?_⟩
            cases b with
            | zero => exact Or.inl rfl
            | succ b => exact (ih count b).2
        | some acc =>
            refine ⟨congrArg Nat.succ (ih _ b).1, ?_⟩
            cases b with
            | zero => exact Or.inr rfl
            | succ b => exact (ih _ b).2

theorem recached_evict : Recached fs p (maybeEvictFromGlobalCaches p) := by
  have hspec := evictFrom_spec p.globalFdLimit p.accessors p.globalDirFdCount
  have haccessor : ∀ b, (maybeEvictFromGlobalCaches p).accessor b = p.accessor b ∨
      (maybeEvictFromGlobalCaches p).accessor b = (p.accessor b).map Accessor.emptied := by
    intro b
    unfold Process.accessor
    rcases (hspec b).2 with heq | heq
    · exact Or.inl (congrArg Option.join heq)
    · refine Or.inr ((congrArg Option.join heq).trans ?_)
      cases p.accessors[b]? with
      | none => rfl
      | some acc => rfl
  refine ⟨(hspec 0).1, fun b => ?_, fun h b acc hacc => ?_⟩
  · unfold Process.base
    rcases haccessor b with heq | heq
    · rw [heq]
    · rw [heq, Option.map_map]
      rfl
  · rcases haccessor b with heq | heq
    · exact h b acc (heq ▸ hacc)
    · rw [heq] at hacc
      obtain ⟨acc', -, rfl⟩ := Option.map_eq_some_iff.mp hacc
      exact cacheOk_emptied acc'

theorem cache_eq_some {cache : LruCache NodePath Nat}
    (h : (p.accessor a).bind Accessor.dirFdCache = some cache) :
    ∃ acc, p.accessor a = some acc ∧ acc.dirFdCache = some cache :=
  Option.bind_eq_some_iff.mp h

/-- A descriptor that the path leads to is cached. -/
theorem recached_keepDirFd {base : AccessorBase} (hbase : p.base a = some base) {key : NodePath}
    {fd : Nat} (hkey : walkNoSymlinks fs base.dirFd key = .ok fd) :
    Recached fs p (p.keepDirFd a key fd) := by
  unfold Process.keepDirFd
  cases hcache : (p.accessor a).bind Accessor.dirFdCache with
  | none => exact .refl
  | some cache =>
      obtain ⟨acc, hacc, hacc'⟩ := cache_eq_some hcache
      rw [Process.base, hacc] at hbase
      cases hbase
      refine (Recached.adjust (a := a) (f := fun acc =>
        { acc with dirFdCache := some (cache.upsert key fd) }) (fun _ => rfl) ?_).trans
          ⟨rfl, fun _ => rfl, id⟩
      intro acc' heq hok cache' hcache' path fd' hfind
      rw [hacc] at heq
      cases heq
      cases hcache'
      by_cases hpath : path = key
      · subst hpath
        rw [LruCache.find_upsert_self_eq hfind]
        exact hkey
      · exact hok cache hacc' path fd' (LruCache.find_of_find_upsert hpath hfind)

/-- The ancestor that is found leads to its descriptor; the cache only changes
    its order. -/
theorem findAnchor_spec (cache : LruCache NodePath Nat) (l : List Bytes) :
    (∀ anchor fd, (findAnchor cache l).1 = some (anchor, fd) →
      cache.find anchor = some fd ∧ anchor <+: l.reverse) ∧
      ∀ path, (findAnchor cache l).2.find path = cache.find path := by
  have hget : ∀ key, cache.get key = (cache.find key, (cache.get key).2) := fun key => by
    rw [← cache.get_fst key]
  induction l with
  | nil =>
      unfold findAnchor
      rw [hget []]
      cases hfind : cache.find [] with
      | some fd =>
          refine ⟨fun anchor fd' h => ?_, cache.find_get []⟩
          cases h
          exact ⟨hfind, List.prefix_refl _⟩
      | none => exact ⟨fun _ _ h => (by cases h), cache.find_get []⟩
  | cons name above ih =>
      unfold findAnchor
      rw [hget (name :: above).reverse]
      cases hfind : cache.find (name :: above).reverse with
      | some fd =>
          refine ⟨fun anchor fd' h => ?_, cache.find_get _⟩
          cases h
          exact ⟨hfind, List.prefix_refl _⟩
      | none =>
          have hsame : (cache.get (name :: above).reverse).2 = cache := by
            unfold LruCache.get
            rw [hfind]
          simp only [hsame]
          refine ⟨fun anchor fd h => ?_, ih.2⟩
          obtain ⟨hanchor, hprefix⟩ := ih.1 anchor fd h
          rw [List.reverse_cons]
          exact ⟨hanchor, hprefix.trans (List.prefix_append _ _)⟩

theorem lookupAnchor_spec {base : AccessorBase} (hbase : p.base a = some base) (hok : p.Ok fs)
    (parent : NodePath) :
    ∃ hit p', lookupAnchor a parent p = .ok hit p' ∧ Recached fs p p' ∧
      ∀ anchor fd, hit = some (anchor, fd) →
        walkNoSymlinks fs base.dirFd anchor = .ok fd ∧ anchor <+: parent := by
  unfold lookupAnchor
  cases hcache : (p.accessor a).bind Accessor.dirFdCache with
  | none => exact ⟨_, _, rfl, .refl, fun _ _ h => by cases h⟩
  | some cache =>
      obtain ⟨acc, hacc, hacc'⟩ := cache_eq_some hcache
      rw [Process.base, hacc] at hbase
      cases hbase
      obtain ⟨hanchor, hfind⟩ := findAnchor_spec cache parent.reverse
      refine ⟨_, _, rfl, .adjust (fun _ => rfl) ?_, fun anchor fd h => ?_⟩
      · intro acc' heq hok' cache' hcache' path fd hpath
        rw [hacc] at heq
        cases heq
        cases hcache'
        rw [hfind] at hpath
        exact hok' cache hacc' path fd hpath
      · obtain ⟨hfound, hprefix⟩ := hanchor anchor fd h
        rw [List.reverse_reverse] at hprefix
        exact ⟨hok a acc hacc cache hacc' anchor fd hfound, hprefix⟩

-- ============================================================================
-- Opening the parent
-- ============================================================================

section Parent

variable {d : Disk} {fresh : Nat} {haveOpenat2 : Bool}

/-- The callbacks keep descriptors that the paths lead to. -/
theorem forM_keepDirFd {base : AccessorBase} {anchor : NodePath} (l : List (Nat × NodePath))
    (hbase : p.base a = some base)
    (hl : ∀ c ∈ l, walkNoSymlinks fs base.dirFd (anchor ++ c.2) = .ok c.1) :
    ∃ p', (l.forM fun c => insertIntoDirFdCache a (anchor ++ c.2) c.1) p = .ok () p' ∧
      Recached fs p p' := by
  induction l generalizing p with
  | nil => exact ⟨p, rfl, .refl⟩
  | cons c l ih =>
      have hkeep := recached_keepDirFd hbase (hl c List.mem_cons_self)
      obtain ⟨p', hrun, hkeeps⟩ := ih ((hkeep.base a).trans hbase)
        fun c' hc' => hl c' (List.mem_cons_of_mem c hc')
      exact ⟨p', hrun, hkeep.trans hkeeps⟩

variable (haveOpenat2) in
/-- A directory is opened below an ancestor, and those on the way are kept. -/
theorem openBeneath_spec (hd : Still d.toWorld fs fresh) {base : AccessorBase}
    (hbase : p.base a = some base) {anchor relPath : NodePath} {startFd : Nat}
    (hanchor : walkNoSymlinks fs base.dirFd anchor = .ok startFd) (hrel : relPath ≠ [])
    (hshort : haveOpenat2 = true → Short relPath) :
    ∃ p', openBeneath d haveOpenat2 startFd relPath directoryFlags
        (fun fd relKey => insertIntoDirFdCache a (anchor ++ relKey) fd) p =
          .ok (opened fs haveOpenat2 startFd relPath) p' ∧ Recached fs p p' := by
  have hstays := openFile_stays d.toWorld haveOpenat2 p.time startFd directoryFlags hrel
  have hopened := openFile_directory startFd hd haveOpenat2 p.time hrel hshort
  generalize hr : openFileEnsureBeneathNoSymlinks d.toWorld haveOpenat2 p.time startFd relPath
    directoryFlags = r at hstays hopened
  have hcallbacks : ∀ c ∈ r.2.callbacks,
      walkNoSymlinks fs base.dirFd (anchor ++ c.2) = .ok c.1 := by
    intro c hc
    obtain ⟨-, -, t, hleads⟩ := hstays.callbacks c hc
    rw [walkNoSymlinks_append, hanchor]
    exact walkNoSymlinks_of_leads hd hleads
  have htime : Recached fs p ({ p with time := r.2.time } : Process) := ⟨rfl, fun _ => rfl, id⟩
  obtain ⟨p', hrun, hkeeps⟩ := forM_keepDirFd r.2.callbacks ((htime.base a).trans hbase) hcallbacks
  refine ⟨p', ?_, htime.trans hkeeps⟩
  rw [← hopened]
  unfold openBeneath
  rw [Effect.bind_of_ok (Effect.get_run p)]
  simp only [hr]
  rw [Effect.modify_bind]
  exact Effect.bind_of_ok hrun

/-- The symbolic link, as a path from further up. -/
def Opened.after (anchor : NodePath) : Opened → Opened
  | .symlinkNotAllowed p => .symlinkNotAllowed (anchor ++ p)
  | r => r

/-- To open a directory below an ancestor is to open it from the top. -/
theorem opened_append {dir startFd : Nat} {anchor : NodePath} (relPath : NodePath)
    (hanchor : walkNoSymlinks fs dir anchor = .ok startFd) :
    opened fs haveOpenat2 dir (anchor ++ relPath) =
      Opened.after anchor (opened fs haveOpenat2 startFd relPath) := by
  unfold opened
  rw [walkNoSymlinks_append, hanchor, linkIn_append relPath hanchor]
  simp only [Except.bind]
  cases walkNoSymlinks fs startFd relPath with
  | ok i => rfl
  | error e =>
      cases e <;> try rfl
      cases haveOpenat2 <;> rfl

/-- What `openParent` returns or throws for an accessor without a cache. -/
def parentOf (fs : Files) (haveOpenat2 : Bool) (base : AccessorBase) (path : NodePath) :
    Except AccessError ParentFd :=
  if path.dropLast = [] then .ok (.fd base.dirFd false)
  else
    match opened fs haveOpenat2 base.dirFd path.dropLast with
    | .fd i => .ok (.fd i true)
    | .failed e => .ok (.invalid e)
    | .symlinkNotAllowed p => .error (.symlinkNotAllowed p
        s!"path '{base.showPath p}' (or its ancestor) is a symlink")
    | .sysError code => .error (.sysError (.other code) "getting status")

variable (haveOpenat2) in
theorem openFrom_spec (hd : Still d.toWorld fs fresh) {base : AccessorBase}
    (hbase : p.base a = some base) {anchor relPath path : NodePath} {startFd : Nat}
    (hanchor : walkNoSymlinks fs base.dirFd anchor = .ok startFd) (hrel : relPath ≠ [])
    (hpath : path.dropLast = anchor ++ relPath) (hshort : haveOpenat2 = true → Short path) :
    ∃ p', openFrom d haveOpenat2 a base anchor startFd relPath p =
      Effect.fromExcept (parentOf fs haveOpenat2 base path) p' ∧ Recached fs p p' := by
  have hrest : haveOpenat2 = true → Short relPath := fun h =>
    (hpath ▸ (hshort h).dropLast).append_right
  obtain ⟨p', hrun, hkeeps⟩ := openBeneath_spec haveOpenat2 hd hbase hanchor hrel hrest
  refine ⟨p', ?_, hkeeps⟩
  have hparent : path.dropLast ≠ [] := by
    rw [hpath]
    exact List.append_ne_nil_of_right_ne_nil anchor hrel
  unfold openFrom parentOf
  rw [if_neg hparent, hpath, opened_append relPath hanchor, Effect.bind_of_ok hrun]
  cases opened fs haveOpenat2 startFd relPath <;> rfl

variable (haveOpenat2) in
theorem openParent_spec (hd : Still d.toWorld fs fresh) {base : AccessorBase}
    (hbase : p.base a = some base) (hok : p.Ok fs) {path : NodePath}
    (hshort : haveOpenat2 = true → Short path) :
    ∃ p', openParent d haveOpenat2 a path p =
      Effect.fromExcept (parentOf fs haveOpenat2 base path) p' ∧ Recached fs p p' := by
  unfold openParent
  rw [Effect.bind_of_ok (getAccessor_of_base hbase)]
  by_cases hparent : path.dropLast = []
  · rw [if_pos hparent, parentOf, if_pos hparent]
    exact ⟨p, rfl, .refl⟩
  · rw [if_neg hparent]
    have hevict : Recached fs p (maybeEvictFromGlobalCaches p) := recached_evict
    obtain ⟨hit, p₁, hlookup, hkeeps, hhit⟩ := lookupAnchor_spec
      ((hevict.base a).trans hbase) (hevict.ok hok) path.dropLast
    have hbase₁ : p₁.base a = some base :=
      (hkeeps.base a).trans ((hevict.base a).trans hbase)
    rw [Effect.modify_bind, Effect.bind_of_ok hlookup]
    cases hit with
    | none =>
        obtain ⟨p', hopen, hkeeps'⟩ := openFrom_spec haveOpenat2 hd hbase₁
          (show walkNoSymlinks fs base.dirFd [] = .ok base.dirFd from rfl) hparent
          (List.nil_append _).symm hshort
        exact ⟨p', hopen, hevict.trans (hkeeps.trans hkeeps')⟩
    | some found =>
        obtain ⟨anchor, fd⟩ := found
        obtain ⟨hanchor, rel, hrel⟩ := hhit anchor fd rfl
        simp only
        by_cases hwhole : anchor = path.dropLast
        · -- the parent itself is cached
          rw [if_pos hwhole]
          refine ⟨p₁, ?_, hevict.trans hkeeps⟩
          rw [hwhole] at hanchor
          simp only [parentOf, if_neg hparent, opened, hanchor]
          rfl
        · rw [if_neg hwhole, ← hrel, List.drop_left]
          have hne : rel ≠ [] := by
            rintro rfl
            rw [List.append_nil] at hrel
            exact hwhole hrel
          obtain ⟨p', hopen, hkeeps'⟩ := openFrom_spec haveOpenat2 hd hbase₁
            hanchor hne hrel.symm hshort
          exact ⟨p', hopen, hevict.trans (hkeeps.trans hkeeps')⟩

/-- What `openParentAndUpsert` returns or throws for an accessor without a
    cache. -/
def upsertOf (fs : Files) (haveOpenat2 : Bool) (base : AccessorBase) (path : NodePath)
    (ignoreMissing : Bool) : Except AccessError (Option Nat) := do
  match ← parentOf fs haveOpenat2 base path with
  | .invalid e =>
      if e = .noent ∨ e = .notdir then
        if ignoreMissing then pure none
        else throw (.fileNotFound s!"path '{base.showPath path}' does not exist")
      else throw (.sysError e s!"opening directory '{base.showPath path.dropLast}'")
  | .fd i _ => pure (some i)

theorem walk_of_parentOf {base : AccessorBase} {path : NodePath} {i : Nat}
    (h : parentOf fs haveOpenat2 base path = .ok (.fd i true)) :
    walkNoSymlinks fs base.dirFd path.dropLast = .ok i := by
  unfold parentOf opened at h
  split at h
  · cases h
  · cases hwalk : walkNoSymlinks fs base.dirFd path.dropLast with
    | ok j =>
        rw [hwalk] at h
        cases h
        rfl
    | error e =>
        rw [hwalk] at h
        cases e <;> cases h

variable (haveOpenat2) in
theorem openParentAndUpsert_spec (hd : Still d.toWorld fs fresh) {base : AccessorBase}
    (hbase : p.base a = some base) (hok : p.Ok fs) {path : NodePath}
    (hshort : haveOpenat2 = true → Short path) (ignoreMissing : Bool) :
    ∃ p', openParentAndUpsert d haveOpenat2 a path ignoreMissing p =
      Effect.fromExcept (upsertOf fs haveOpenat2 base path ignoreMissing) p' ∧ Recached fs p p' := by
  obtain ⟨p₁, hopen, hkeeps⟩ := openParent_spec haveOpenat2 hd hbase hok hshort
  unfold openParentAndUpsert upsertOf
  rw [Effect.bind_of_ok (getAccessor_of_base hbase)]
  cases hparent : parentOf fs haveOpenat2 base path with
  | error e =>
      rw [hparent] at hopen
      rw [Effect.bind_of_error hopen]
      exact ⟨p₁, rfl, hkeeps⟩
  | ok parent =>
      rw [hparent] at hopen
      rw [Effect.bind_of_ok hopen]
      cases parent with
      | invalid e =>
          refine ⟨p₁, ?_, hkeeps⟩
          change (if e = .noent ∨ e = .notdir then _ else _ : AccessM (Option Nat)) p₁ =
            Effect.fromExcept (if e = .noent ∨ e = .notdir then _ else _) p₁
          split
          · cases ignoreMissing <;> rfl
          · rfl
      | fd i owning =>
          cases owning with
          | false => exact ⟨p₁, rfl, hkeeps⟩
          | true =>
              have hkeeps' := recached_keepDirFd ((hkeeps.base a).trans hbase)
                (walk_of_parentOf hparent)
              exact ⟨_, rfl, hkeeps.trans hkeeps'⟩

end Parent

-- ============================================================================
-- Whole uses
-- ============================================================================

/-- Two processes whose accessors differ in their caches only, which are right. -/
structure Same (fs : Files) (p q : Process) : Prop where
  length : p.accessors.length = q.accessors.length
  base : ∀ a, p.base a = q.base a
  left : p.Ok fs
  right : q.Ok fs

theorem Same.keeps (h : Same fs p q) {p' q' : Process} (hp : Recached fs p p') (hq : Recached fs q q') :
    Same fs p' q' where
  length := hp.length.trans (h.length.trans hq.length.symm)
  base a := (hp.base a).trans ((h.base a).trans (hq.base a).symm)
  left := hp.ok h.left
  right := hq.ok h.right

theorem base_adjust {f : Accessor → Accessor} {g : AccessorBase → AccessorBase}
    (hf : ∀ acc, (f acc).toAccessorBase = g acc.toAccessorBase) (b : Nat) :
    (p.adjust a f).base b = if a = b then (p.base b).map g else p.base b := by
  unfold Process.base
  rw [accessor_adjust]
  split
  · rw [Option.map_map, Option.map_map]
    congr 1
    funext acc
    exact hf acc
  · rfl

theorem ok_adjust {f : Accessor → Accessor} (hok : p.Ok fs)
    (hf : ∀ acc, CacheOk fs acc → CacheOk fs (f acc)) : (p.adjust a f).Ok fs := by
  intro b acc hacc
  rw [accessor_adjust] at hacc
  split at hacc
  · obtain ⟨acc', hacc', rfl⟩ := Option.map_eq_some_iff.mp hacc
    exact hf acc' (hok b acc' hacc')
  · exact hok b acc hacc

/-- Both accessors change in the same way. -/
theorem Same.adjust (h : Same fs p q) {f : Accessor → Accessor} {g : AccessorBase → AccessorBase}
    (hg : ∀ acc, (f acc).toAccessorBase = g acc.toAccessorBase)
    (hf : ∀ acc, CacheOk fs acc → CacheOk fs (f acc)) (a : Nat) :
    Same fs (p.adjust a f) (q.adjust a f) where
  length := by rw [length_adjust, length_adjust, h.length]
  base b := by rw [base_adjust hg, base_adjust hg, h.base]
  left := ok_adjust h.left hf
  right := ok_adjust h.right hf

section Steady

variable {α : Type} {d : Disk} {fresh : Nat} {mtimes : Nat → Int} {haveOpenat2 : Bool}

/-- Nobody changes anything, and the modification times and the paths of the
    descriptors stay. -/
structure Quiet (d : Disk) (fs : Files) (fresh : Nat) (mtimes : Nat → Int) : Prop where
  still : Still d.toWorld fs fresh
  mtime : ∀ t, d.mtime t = mtimes
  procPath : ∀ t t', d.procPath t = d.procPath t'

/-- What a program answers and what it does to the accessors does not depend on
    the caches. -/
abbrev Steady (fs : Files) (x : AccessM α) : Prop := Relates (Same fs) x x

theorem steady_getAccessor (a : Nat) : Steady fs (getAccessor a) := by
  intro p q h
  cases hbase : p.base a with
  | some base =>
      rw [getAccessor_of_base hbase, getAccessor_of_base ((h.base a).symm.trans hbase)]
      exact ⟨rfl, h⟩
  | none =>
      have hgone : ∀ r : Process, r.base a = none → getAccessor a r = .error .gone r := by
        intro r hr
        unfold getAccessor
        rw [Option.map_eq_none_iff.mp hr]
      rw [hgone p hbase, hgone q ((h.base a).symm.trans hbase)]
      exact ⟨rfl, h⟩

theorem steady_sys {f : Nat → α} (hf : ∀ t t', f t = f t') : Steady fs (sys f) :=
  fun p q h => ⟨hf p.time q.time, h.keeps ⟨rfl, fun _ => rfl, id⟩ ⟨rfl, fun _ => rfl, id⟩⟩

theorem steady_openParentAndUpsert (hd : Quiet d fs fresh mtimes) (a : Nat) {path : NodePath}
    (hshort : haveOpenat2 = true → Short path) (ignoreMissing : Bool) :
    Steady fs (openParentAndUpsert d haveOpenat2 a path ignoreMissing) := by
  intro p q h
  cases hbase : p.base a with
  | none =>
      have hgone := steady_getAccessor a p q h
      unfold openParentAndUpsert
      rw [Effect.bind_run, Effect.bind_run]
      unfold getAccessor at hgone ⊢
      rw [Option.map_eq_none_iff.mp hbase,
        Option.map_eq_none_iff.mp ((h.base a).symm.trans hbase)] at hgone ⊢
      exact hgone
  | some base =>
      obtain ⟨p', hp, hkeepsp⟩ := openParentAndUpsert_spec haveOpenat2 hd.still
        hbase h.left hshort ignoreMissing
      obtain ⟨q', hq, hkeepsq⟩ := openParentAndUpsert_spec haveOpenat2 hd.still
        ((h.base a).symm.trans hbase) h.right hshort ignoreMissing
      rw [hp, hq]
      cases upsertOf fs haveOpenat2 base path ignoreMissing with
      | ok r => exact ⟨rfl, h.keeps hkeepsp hkeepsq⟩
      | error e => exact ⟨rfl, h.keeps hkeepsp hkeepsq⟩

theorem steady_maybeUpdateMtime (a : Nat) (seenMTime : Int) :
    Steady fs (maybeUpdateMtime a seenMTime) := by
  refine .change fun p q h => h.adjust
    (g := fun base => if base.trackLastModified then
      { base with mtime := max base.mtime seenMTime } else base) (fun acc => ?_)
    (fun acc hok => ?_) a
  · split <;> rfl
  · split
    · exact hok
    · exact hok

theorem steady_openBeneath (hd : Quiet d fs fresh mtimes) (dirFd : Nat) (path : NodePath)
    (flags : OpenFlags) : Steady fs (openBeneath d haveOpenat2 dirFd path flags noCallback) := by
  -- without a callback only the time goes on
  have hrun : ∀ r : Process, ∃ t, openBeneath d haveOpenat2 dirFd path flags noCallback r =
      .ok (openFileEnsureBeneathNoSymlinks d.toWorld haveOpenat2 r.time dirFd path flags).1
        ({ r with time := t } : Process) := by
    intro r
    refine ⟨(openFileEnsureBeneathNoSymlinks d.toWorld haveOpenat2 r.time dirFd path flags).2.time,
      ?_⟩
    have hnone : ∀ (l : List (Nat × NodePath)) (s : Process),
        (l.forM fun c => noCallback c.1 c.2) s = .ok () s := by
      intro l s
      induction l with
      | nil => rfl
      | cons c l ih => exact ih
    unfold openBeneath
    rw [Effect.bind_of_ok (Effect.get_run r)]
    simp only
    rw [Effect.modify_bind]
    exact Effect.bind_of_ok (hnone _ _)
  intro p q h
  obtain ⟨t, hp⟩ := hrun p
  obtain ⟨t', hq⟩ := hrun q
  rw [hp, hq]
  exact ⟨openFile_time hd.still haveOpenat2 flags p.time q.time,
    h.keeps ⟨rfl, fun _ => rfl, id⟩ ⟨rfl, fun _ => rfl, id⟩⟩

theorem steady_openLastAt (hd : Quiet d fs fresh mtimes) (acc : AccessorBase) (parentFd : Nat)
    (path : NodePath) (flags : OpenFlags) :
    Steady fs (openLastAt d haveOpenat2 acc parentFd path flags) := by
  refine .seq (steady_openBeneath hd _ _ _) fun opened => ?_
  cases opened with
  | symlinkNotAllowed p => exact .raise _
  | fd i => exact .ret _
  | failed e => exact .ret _
  | sysError code => exact .ret _

/-- The steps of the member functions do not depend on the caches. -/
theorem closed_steady (hd : Quiet d fs fresh mtimes) :
    Closed d haveOpenat2 (fun path => haveOpenat2 = true → Short path)
      fun {_} x => Steady fs x where
  ret := .ret
  raise := .raise
  seq := .seq
  mapError f := .mapError f
  getAccessor := steady_getAccessor
  maybeUpdateMtime := steady_maybeUpdateMtime
  fstat i := steady_sys fun t t' => by simp only [hd.still.fs, hd.mtime]
  fstatat dirFd name := steady_sys fun t t' => by
    simp only [hd.still.fs, hd.still.fails, hd.mtime]
  descriptorToPath i := steady_sys fun t t' => by rw [hd.procPath t t']
  reopen dirFd := steady_sys fun t t' => by simp only [hd.still.fails]
  readdir dirFd := steady_sys fun t t' => by simp only [hd.still.fs]
  openLastAt := steady_openLastAt hd
  openParentAndUpsert a path ignoreMissing hshort :=
    steady_openParentAndUpsert hd a hshort ignoreMissing

/-- A new accessor, with one cache or another. -/
theorem relates_add {acc acc' : Accessor} (hbase : acc.toAccessorBase = acc'.toAccessorBase)
    (hok : CacheOk fs acc) (hok' : CacheOk fs acc') : Relates (Same fs) (add acc) (add acc') := by
  have haccessor : ∀ (r : Process) (new : Accessor) (b : Nat),
      ({ r with accessors := r.accessors ++ [some new] } : Process).accessor b =
        if b = r.accessors.length then some new else r.accessor b := by
    intro r new b
    unfold Process.accessor
    simp only
    split
    · next hb => rw [hb, List.getElem?_concat_length, Option.join_some]
    · next hb =>
        rcases Nat.lt_or_gt_of_ne hb with hlt | hgt
        · rw [List.getElem?_append_left hlt]
        · rw [List.getElem?_eq_none (by rw [List.length_append, List.length_singleton]; omega),
            List.getElem?_eq_none (Nat.le_of_lt hgt)]
  have hadded : ∀ (r : Process) (new : Accessor), CacheOk fs new → r.Ok fs →
      ({ r with accessors := r.accessors ++ [some new] } : Process).Ok fs := by
    intro r new hnew hr b acc hacc
    rw [haccessor] at hacc
    split at hacc
    · cases hacc
      exact hnew
    · exact hr b acc hacc
  intro p q h
  refine ⟨h.length, ⟨?_, fun b => ?_, hadded p acc hok h.left, hadded q acc' hok' h.right⟩⟩
  · simp only [List.length_append, List.length_singleton, h.length]
  · unfold Process.base
    rw [haccessor, haccessor, h.length]
    split
    · exact congrArg some hbase
    · exact h.base b

theorem steady_invalidateCache (a : Nat) : Steady fs (invalidateCache a) := by
  refine .change fun p q h => ?_
  have hemptied := h.adjust (f := Accessor.emptied) (g := id) (fun _ => rfl)
    (fun acc _ => cacheOk_emptied acc) a
  exact ⟨hemptied.length, hemptied.base, hemptied.left, hemptied.right⟩

theorem steady_drop (a : Nat) : Steady fs (drop a) := by
  have haccessor : ∀ (r : Process) (b : Nat),
      ({ r with accessors := r.accessors.modify a fun _ => none } : Process).accessor b =
        if a = b then none else r.accessor b := by
    intro r b
    unfold Process.accessor
    simp only [List.getElem?_modify]
    split
    · cases r.accessors[b]? <;> rfl
    · cases r.accessors[b]? <;> rfl
  have hdropped : ∀ r : Process, r.Ok fs →
      ({ r with accessors := r.accessors.modify a fun _ => none } : Process).Ok fs := by
    intro r hr b acc hacc
    rw [haccessor] at hacc
    split at hacc
    · cases hacc
    · exact hr b acc hacc
  refine .change fun p q h => ⟨?_, fun b => ?_, hdropped p h.left, hdropped q h.right⟩
  · simp only [List.length_modify, h.length]
  · unfold Process.base
    rw [haccessor, haccessor]
    split
    · rfl
    · exact h.base b

theorem cacheOk_none {acc : Accessor} (h : acc.dirFdCache = none) : CacheOk fs acc := by
  intro cache hcache
  rw [h] at hcache
  cases hcache

/-- The path that an action names. -/
def Act.path : Act → NodePath
  | .maybeLstat _ path | .readFile _ path | .readDirectory _ path | .readLink _ path
  | .enter _ path => path
  | _ => []

/-- One action with caches and without. -/
theorem relates_perform (hd : Quiet d fs fresh mtimes) {act : Act}
    (hshort : haveOpenat2 = true → Short act.path) :
    Relates (Same fs) (perform d haveOpenat2 act) (perform d haveOpenat2 act.uncached) := by
  cases act with
  | make dirFd displayPrefix trackLastModified dirFdCacheSize =>
      refine .seq (relates_add rfl ?_ (cacheOk_none rfl)) fun a => .ret _
      intro cache hcache path fd hfind
      simp only at hcache
      split at hcache
      · cases hcache
      · cases hcache
        rw [LruCache.find_empty] at hfind
        cases hfind
  | maybeLstat a path => exact .seq ((closed_steady hd).maybeLstat_of hshort) fun _ => .ret _
  | readFile a path => exact .seq ((closed_steady hd).readFile_of hshort) fun _ => .ret _
  | readDirectory a path => exact .seq ((closed_steady hd).readDirectory_of hshort) fun _ => .ret _
  | readLink a path => exact .seq ((closed_steady hd).readLink_of hshort) fun _ => .ret _
  | getLastModified a => exact .seq (steady_getAccessor a) fun _ => .ret _
  | enter a path =>
      refine .seq (steady_getAccessor a) fun acc => ?_
      refine .seq ((closed_steady hd).openSubdirectory_of hshort) fun dirFd => ?_
      exact .seq (relates_add rfl (cacheOk_none rfl) (cacheOk_none rfl)) fun _ => .ret _
  | leave sub a =>
      refine .seq (steady_getAccessor sub) fun acc => ?_
      refine .seq (steady_maybeUpdateMtime a _) fun _ => ?_
      exact .seq (.seq (steady_invalidateCache sub) fun _ => steady_drop sub) fun _ => .ret _
  | invalidateCache a => exact .seq (steady_invalidateCache a) fun _ => .ret _
  | destroy a =>
      exact .seq (.seq (steady_invalidateCache a) fun _ => steady_drop a) fun _ => .ret _

theorem performAll_uncached (hd : Quiet d fs fresh mtimes) {acts : List Act}
    (hshort : haveOpenat2 = true → ∀ act ∈ acts, Short act.path) (h : Same fs p q) :
    (performAll d haveOpenat2 acts p).1 = (performAll d haveOpenat2 (acts.map Act.uncached) q).1 := by
  induction acts generalizing p q with
  | nil => rfl
  | cons act acts ih =>
      have hrest := fun h act' hact' => hshort h act' (List.mem_cons_of_mem act hact')
      have hends := relates_perform hd (fun h => hshort h act List.mem_cons_self) p q h
      rw [List.map_cons, performAll, performAll]
      cases hp : perform d haveOpenat2 act p with
      | ok answer p' =>
          cases hq : perform d haveOpenat2 act.uncached q with
          | ok answer' q' =>
              rw [hp, hq] at hends
              obtain ⟨rfl, hsame⟩ := hends
              exact congrArg (List.cons _) (ih hrest hsame)
          | error e q' =>
              rw [hp, hq] at hends
              exact hends.elim
      | error e p' =>
          cases hq : perform d haveOpenat2 act.uncached q with
          | ok answer' q' =>
              rw [hp, hq] at hends
              exact hends.elim
          | error e' q' =>
              rw [hp, hq] at hends
              obtain ⟨rfl, hsame⟩ := hends
              exact congrArg (List.cons _) (ih hrest hsame)

/-- While nothing changes in the file system, the caches cannot be seen: every
    answer and every exception is the one of accessors without a cache, whatever
    was evicted on the way, and whatever the limit is.  `openat2` takes a path
    below a cached directory that it may not take from the top, so with it the
    paths are to be short. -/
theorem cache_transparent (hd : Quiet d fs fresh mtimes) (haveOpenat2 : Bool) (acts : List Act)
    (hshort : haveOpenat2 = true → ∀ act ∈ acts, Short act.path) (limit limit' : Nat) :
    (performAll d haveOpenat2 acts (Process.start limit)).1 =
      (performAll d haveOpenat2 (acts.map Act.uncached) (Process.start limit')).1 := by
  have hnone : ∀ l a, (Process.start l).accessor a = none := fun l a => rfl
  refine performAll_uncached hd hshort ⟨rfl, fun a => rfl, fun a acc h => ?_, fun a acc h => ?_⟩
  · rw [hnone] at h
    cases h
  · rw [hnone] at h
    cases h

end Steady

namespace Sample

/-- `/a/b` with a file and a symbolic link. -/
def files : Files
  | 0 => .directory [(ascii "a", 1)]
  | 1 => .directory [(ascii "b", 2)]
  | 2 => .directory [(ascii "f", 3), (ascii "l", 4)]
  | 3 => .object (.regular false (ascii "x"))
  | _ => .symlink (ascii "f")

def disk : Disk where
  fs _ := files
  fails _ := none
  fresh _ := 5
  mtime _ i := i
  procPath _ _ := ascii "/r"

theorem quiet_disk : Quiet disk files 5 fun i => i :=
  ⟨⟨fun _ => rfl, fun _ => rfl, fun _ => rfl⟩, fun _ => rfl, fun _ _ => rfl⟩

/-- The second accessor evicts what the first one keeps. -/
def acts : List Act :=
  let file := [ascii "a", ascii "b", ascii "f"]
  let link := [ascii "a", ascii "b", ascii "l", ascii "x"]
  [.make 0 (ascii "/r") true 4, .make 0 (ascii "/r") false 4, .readFile 0 file,
    .maybeLstat 0 file, .readFile 1 file, .readFile 0 link, .getLastModified 0]

end Sample

theorem cache_transparent_evicted :
    (performAll Sample.disk true Sample.acts (Process.start 1)).1 =
      (performAll Sample.disk true (Sample.acts.map Act.uncached) (Process.start 1)).1 ∧
    (performAll Sample.disk true (Sample.acts.take 3) (Process.start 1)).2.accessors.map
      (fun acc => (acc.map Accessor.cached).getD 0) = [1, 0] ∧
    (performAll Sample.disk true (Sample.acts.take 5) (Process.start 1)).2.accessors.map
      (fun acc => (acc.map Accessor.cached).getD 0) = [0, 1] :=
  ⟨cache_transparent Sample.quiet_disk true Sample.acts (fun _ => by decide) 1 1,
    by decide +kernel, by decide +kernel⟩

end PosixAccessor
end NixStore
