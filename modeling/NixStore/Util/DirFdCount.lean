/-
  NixStore.Util.DirFdCount

  How many directory descriptors the accessors of a process keep.  The counter
  that they share is always the number of descriptors in their caches, whatever
  happens in the file system and whichever calls fail, and it stays within the
  limit but for what one call may add (`fd_count`).

  A call evicts first and inserts afterwards: at most one descriptor for each
  directory on the way to the parent and one for the parent.
-/

import Mathlib.Algebra.Order.BigOperators.Group.List
import NixStore.Lib.Effect
import NixStore.Util.AccessorCalls

namespace NixStore
namespace PosixAccessor

open FileSystemAt Related Effect

-- ============================================================================
-- The callbacks
-- ============================================================================

section Callbacks

variable {w : World} {dirFd : Nat} {flags : OpenFlags}

/-- The loop over the components calls back for all but the first and the last
    two of them. -/
theorem openIterative_callbacks (rest : NodePath) (st : Walk) :
    (openIterative w dirFd flags rest st).2.callbacks.length ≤
      st.callbacks.length + (rest.length - if st.parentFd.isSome then 1 else 2) := by
  induction rest generalizing st with
  | nil => exact Nat.le_add_right _ _
  | cons component rest ih =>
      cases rest with
      | nil =>
          unfold openIterative
          split <;> exact Nat.le_add_right _ _
      | cons next rest =>
          unfold openIterative
          split
          · exact Nat.le_add_right _ _
          · refine (ih _).trans ?_
            simp only [Option.isSome_some, if_true, List.length_append, List.length_cons]
            cases st.parentFd with
            | none =>
                simp only [Option.map_none, Option.toList_none, List.length_nil, Option.isSome_none,
                  Bool.false_eq_true, if_false]
                omega
            | some fd =>
                simp only [Option.map_some, Option.toList_some, List.length_singleton,
                  Option.isSome_some, if_true]
                omega

variable (w dirFd flags) in
theorem openFile_callbacks (haveOpenat2 : Bool) (t : Nat) (path : NodePath) :
    (openFileEnsureBeneathNoSymlinks w haveOpenat2 t dirFd path flags).2.callbacks.length ≤
      path.length - 2 := by
  unfold openFileEnsureBeneathNoSymlinks
  split
  · simp only
    split <;> exact Nat.zero_le _
  · refine (openIterative_callbacks path (Walk.start t)).trans ?_
    exact (Nat.zero_add _).le

end Callbacks

-- ============================================================================
-- The counter
-- ============================================================================

/-- The descriptors that an accessor keeps, if it is there. -/
def cachedOf (accessor : Option Accessor) : Nat := (accessor.map Accessor.cached).getD 0

/-- The descriptors that all accessors keep. -/
def Process.held (p : Process) : Nat := (p.accessors.map cachedOf).sum

/-- The counter is right, and at most `n`. -/
structure Counted (limit n : Nat) (p : Process) : Prop where
  held : p.globalDirFdCount = p.held
  limit : p.globalFdLimit = limit
  le : p.globalDirFdCount ≤ n

variable {limit n : Nat} {p : Process} {a : Nat}

theorem Counted.mono {m : Nat} (h : Counted limit n p) (hm : n ≤ m) : Counted limit m p :=
  ⟨h.held, h.limit, h.le.trans hm⟩

/-- An accessor is replaced by another one. -/
theorem sum_modify (l : List (Option Accessor)) (a : Nat) (f : Option Accessor → Option Accessor) :
    ((l.modify a f).map cachedOf).sum + cachedOf l[a]?.join =
      (l.map cachedOf).sum + cachedOf (l[a]?.map f).join := by
  induction l generalizing a with
  | nil => rw [List.modify_nil, List.getElem?_nil, Option.map_none]
  | cons accessor rest ih =>
      cases a with
      | zero =>
          simp only [List.modify_zero_cons, List.map_cons, List.sum_cons, List.getElem?_cons_zero,
            Option.map_some, Option.join_some]
          omega
      | succ a =>
          simp only [List.modify_succ_cons, List.map_cons, List.sum_cons, List.getElem?_cons_succ]
          have := ih a
          omega

theorem held_adjust (f : Accessor → Accessor) :
    (p.adjust a f).held + cachedOf (p.accessor a) =
      p.held + cachedOf ((p.accessor a).map f) := by
  have hsum := sum_modify p.accessors a (Option.map f)
  unfold Process.held Process.adjust Process.accessor
  cases haccessor : p.accessors[a]? with
  | none =>
      rw [haccessor] at hsum
      exact hsum
  | some acc =>
      rw [haccessor] at hsum
      exact hsum

theorem cachedOf_le_held : cachedOf (p.accessor a) ≤ p.held := by
  unfold Process.accessor Process.held
  cases haccessor : p.accessors[a]? with
  | none => exact Nat.zero_le _
  | some acc =>
      exact List.le_sum_of_mem (List.mem_map_of_mem (List.mem_of_getElem? haccessor))

@[simp] theorem cached_emptied (acc : Accessor) : acc.emptied.cached = 0 := by
  unfold Accessor.emptied Accessor.cached
  cases acc.dirFdCache <;> rfl

-- ============================================================================
-- Eviction and insertion
-- ============================================================================

/-- Eviction ends below the limit, unless nothing is left. -/
theorem evictFrom_count (limit : Nat) (l : List (Option Accessor)) (count other : Nat)
    (h : count = (l.map cachedOf).sum + other) :
    (evictFrom limit l count).2 = ((evictFrom limit l count).1.map cachedOf).sum + other ∧
      (evictFrom limit l count).2 ≤ count ∧
      ((evictFrom limit l count).2 < limit ∨ (evictFrom limit l count).2 = other) := by
  induction l generalizing count with
  | nil => exact ⟨h, Nat.le_refl _, Or.inr (h.trans (Nat.zero_add _))⟩
  | cons accessor rest ih =>
      rw [List.map_cons, List.sum_cons] at h
      unfold evictFrom
      by_cases hlt : count < limit
      · rw [if_pos hlt]
        exact ⟨by rw [List.map_cons, List.sum_cons, h], Nat.le_refl _, Or.inl hlt⟩
      · rw [if_neg hlt]
        cases accessor with
        | none =>
            obtain ⟨hsum, hle, hend⟩ := ih count (h.trans (by rw [cachedOf]; simp))
            refine ⟨?_, hle, hend⟩
            simp only [List.map_cons, List.sum_cons]
            rw [hsum]
            exact congrArg (· + other) (Nat.zero_add _).symm
        | some acc =>
            have hacc : cachedOf (some acc) = acc.cached := rfl
            rw [hacc] at h
            obtain ⟨hsum, hle, hend⟩ := ih (count - acc.cached) (by omega)
            refine ⟨?_, hle.trans (Nat.sub_le _ _), hend⟩
            have hemptied : cachedOf (some acc.emptied) = 0 := cached_emptied acc
            simp only [List.map_cons, List.sum_cons, hemptied]
            rw [hsum]
            exact congrArg (· + other) (Nat.zero_add _).symm

theorem counted_evict (h : Counted limit n p) :
    Counted limit (max 1 limit - 1) (maybeEvictFromGlobalCaches p) := by
  obtain ⟨hsum, -, hend⟩ := evictFrom_count p.globalFdLimit p.accessors p.globalDirFdCount 0 h.held
  refine ⟨hsum, h.limit, ?_⟩
  have hle : (evictFrom p.globalFdLimit p.accessors p.globalDirFdCount).2 ≤ max 1 limit - 1 := by
    rw [h.limit] at hend ⊢
    omega
  exact hle

/-- Only the order of a cache changes, or what is not its cache. -/
theorem counted_adjust {f : Accessor → Accessor} (h : Counted limit n p)
    (hf : ∀ acc, p.accessor a = some acc → (f acc).cached = acc.cached) :
    Counted limit n (p.adjust a f) := by
  refine ⟨?_, h.limit, h.le⟩
  have hadjust := held_adjust (p := p) (a := a) f
  have hsame : cachedOf ((p.accessor a).map f) = cachedOf (p.accessor a) := by
    cases hacc : p.accessor a with
    | none => rfl
    | some acc => exact hf acc hacc
  have hcount : (p.adjust a f).globalDirFdCount = p.globalDirFdCount := rfl
  rw [hcount, h.held]
  omega

theorem counted_keepDirFd (h : Counted limit n p) (key : NodePath) (fd : Nat) :
    Counted limit (n + 1) (p.keepDirFd a key fd) := by
  unfold Process.keepDirFd
  cases hcache : (p.accessor a).bind Accessor.dirFdCache with
  | none => exact h.mono (Nat.le_succ n)
  | some cache =>
      obtain ⟨acc, hacc, hacc'⟩ := Option.bind_eq_some_iff.mp hcache
      have hbefore : cachedOf (p.accessor a) = cache.entries.length := by
        rw [hacc]
        change acc.cached = _
        unfold Accessor.cached
        rw [hacc']
      have hadjust := held_adjust (p := p) (a := a) fun acc =>
        { acc with dirFdCache := some (cache.upsert key fd) }
      have hafter : cachedOf ((p.accessor a).map fun acc =>
          { acc with dirFdCache := some (cache.upsert key fd) }) =
          (cache.upsert key fd).entries.length := by
        rw [hacc]
        rfl
      have hheld := cachedOf_le_held (p := p) (a := a)
      have hupsert := cache.length_upsert_le key fd
      have hcount := h.held
      have hle := h.le
      rw [hafter, hbefore] at hadjust
      rw [hbefore] at hheld
      refine ⟨?_, h.limit, ?_⟩
      · change p.globalDirFdCount + (cache.upsert key fd).entries.length - cache.entries.length =
          (p.adjust a fun acc => { acc with dirFdCache := some (cache.upsert key fd) }).held
        omega
      · change p.globalDirFdCount + (cache.upsert key fd).entries.length - cache.entries.length ≤
          n + 1
        omega

theorem length_findAnchor (cache : LruCache NodePath Nat) (l : List Bytes) :
    (findAnchor cache l).2.entries.length = cache.entries.length := by
  induction l generalizing cache with
  | nil =>
      have hget := cache.length_get []
      unfold findAnchor
      split
      all_goals
        next heq =>
          rw [heq] at hget
          exact hget
  | cons name above ih =>
      have hget := cache.length_get (name :: above).reverse
      unfold findAnchor
      split
      all_goals
        next heq =>
          rw [heq] at hget
          first
          | exact hget
          | exact (ih _).trans hget

-- ============================================================================
-- The member functions
-- ============================================================================

section Members

variable {α : Type} {d : Disk} {haveOpenat2 : Bool}

theorem counted_getAccessor (a : Nat) : Keeps (Counted limit n) (getAccessor a) := by
  intro p h
  unfold getAccessor
  cases p.accessor a <;> exact h

theorem counted_sys (f : Nat → α) : Keeps (Counted limit n) (sys f) :=
  fun _ h => ⟨h.held, h.limit, h.le⟩

variable (limit n a) in
theorem counted_lookupAnchor (parent : NodePath) :
    Keeps (Counted limit n) (lookupAnchor a parent) := by
  intro p h
  unfold lookupAnchor
  cases hcache : (p.accessor a).bind Accessor.dirFdCache with
  | none => exact h
  | some cache =>
      obtain ⟨acc, hacc, hacc'⟩ := Option.bind_eq_some_iff.mp hcache
      refine counted_adjust h fun acc' heq => ?_
      rw [hacc] at heq
      cases heq
      unfold Accessor.cached
      rw [hacc']
      exact length_findAnchor cache parent.reverse

variable (limit n a) in
/-- The callbacks insert one descriptor each. -/
theorem counted_forM (l : List (Nat × NodePath)) (key : Nat × NodePath → NodePath) :
    Spec (Counted limit n) (l.forM fun c => insertIntoDirFdCache a (key c) c.1)
      (fun _ => Counted limit (n + l.length)) (fun _ => Counted limit (n + l.length)) := by
  induction l generalizing n with
  | nil => exact Spec.ret fun _ h => h
  | cons c l ih =>
      intro p h
      have hrest := ih (n := n + 1) _ (counted_keepDirFd (a := a) h (key c) c.1)
      rw [Nat.add_right_comm, Nat.add_assoc] at hrest
      exact hrest

theorem counted_openBeneath (dirFd : Nat) (path : NodePath) (flags : OpenFlags)
    (key : NodePath → NodePath) :
    Keeps (Counted limit n) (openBeneath d haveOpenat2 dirFd path flags noCallback) ∧
    Spec (Counted limit n) (openBeneath d haveOpenat2 dirFd path flags
        fun fd relKey => insertIntoDirFdCache a (key relKey) fd)
      (fun _ => Counted limit (n + (path.length - 2)))
      (fun _ => Counted limit (n + (path.length - 2))) := by
  constructor
  · refine .look fun p => .seq (.change fun q h => ⟨h.held, h.limit, h.le⟩) fun _ => ?_
    exact .seq (.loop fun c _ => .ret _) fun _ => .ret _
  · refine Spec.look fun p h => ?_
    have hcallbacks := openFile_callbacks d.toWorld dirFd flags
      haveOpenat2 p.time path
    simp only
    generalize openFileEnsureBeneathNoSymlinks d.toWorld haveOpenat2 p.time dirFd path flags = r
      at hcallbacks ⊢
    refine Spec.seq (Q := fun _ => Counted limit n)
      (.change fun q hq => hq ▸ ⟨h.held, h.limit, h.le⟩) fun _ => ?_
    have hforM := counted_forM limit n a r.2.callbacks fun c => key c.2
    have hle : n + r.2.callbacks.length ≤ n + (path.length - 2) := Nat.add_le_add_left hcallbacks n
    refine Spec.seq (hforM.weaken (fun _ h => h) (fun _ _ h => h.mono hle)
      fun _ _ h => h.mono hle) fun _ => .ret fun _ h => h

theorem counted_openFrom (acc : AccessorBase) (anchor : NodePath) (startFd : Nat)
    (relPath : NodePath) :
    Spec (Counted limit n) (openFrom d haveOpenat2 a acc anchor startFd relPath)
      (fun _ => Counted limit (n + (relPath.length - 2)))
      (fun _ => Counted limit (n + (relPath.length - 2))) := by
  refine (counted_openBeneath startFd relPath directoryFlags (anchor ++ ·)).2.seq fun opened => ?_
  cases opened with
  | fd i => exact .ret fun _ h => h
  | failed e => exact .ret fun _ h => h
  | symlinkNotAllowed p => exact .raise fun _ h => h
  | sysError code => exact .raise fun _ h => h

/-- After eviction there is room for all but the directories on the way. -/
theorem counted_openParentAndUpsert {depth : Nat} (path : NodePath) (hpath : path.length ≤ depth)
    (ignoreMissing : Bool) :
    Keeps (Counted limit (max 1 limit + (depth - 3)))
      (openParentAndUpsert d haveOpenat2 a path ignoreMissing) := by
  have hroom : max 1 limit - 1 + (depth - 3) + 1 ≤ max 1 limit + (depth - 3) := by omega
  -- one place is left for the parent
  have hparent : Spec (Counted limit (max 1 limit + (depth - 3)))
      (openParent d haveOpenat2 a path)
      (fun parent => Counted limit (match parent with
        | .fd _ true => max 1 limit - 1 + (depth - 3)
        | _ => max 1 limit + (depth - 3)))
      (fun _ => Counted limit (max 1 limit + (depth - 3))) := by
    refine Spec.seq (counted_getAccessor a) fun acc =>
      Spec.cond (fun _ => Spec.ret fun _ h => h) fun _ => ?_
    refine Spec.seq (Q := fun _ => Counted limit (max 1 limit - 1))
      (.change fun p h => counted_evict h) fun _ => ?_
    have hlookup := counted_lookupAnchor limit (max 1 limit - 1) a
      path.dropLast
    refine (hlookup.weaken (fun _ h => h) (fun _ _ h => h)
      fun _ _ h => h.mono (by omega)).seq fun hit => ?_
    have hopen : ∀ anchor startFd rel, rel.length ≤ path.length - 1 →
        Spec (Counted limit (max 1 limit - 1)) (openFrom d haveOpenat2 a acc anchor startFd rel)
          (fun parent => Counted limit (match parent with
            | .fd _ true => max 1 limit - 1 + (depth - 3)
            | _ => max 1 limit + (depth - 3)))
          (fun _ => Counted limit (max 1 limit + (depth - 3))) := by
      intro anchor startFd rel hrel
      refine (counted_openFrom acc anchor startFd rel).weaken (fun _ h => h) (fun parent q h => ?_)
        (fun _ _ h => h.mono (by omega))
      split
      · exact h.mono (by omega)
      · exact h.mono (by omega)
    cases hit with
    | none => exact hopen _ _ _ (by rw [List.length_dropLast])
    | some found =>
        refine .cond (fun _ => .ret fun _ h => h.mono (Nat.le_add_right _ _)) fun _ => ?_
        refine hopen _ _ _ ?_
        rw [List.length_drop, List.length_dropLast]
        exact Nat.sub_le _ _
  refine Spec.seq (counted_getAccessor a) fun acc => Spec.seq hparent fun parent => ?_
  cases parent with
  | invalid e =>
      refine .cond (fun _ => ?_) fun _ => .raise fun _ h => h
      cases ignoreMissing with
      | true => exact .ret fun _ h => h
      | false => exact .raise fun _ h => h
  | fd i owning =>
      cases owning with
      | false => exact .ret fun _ h => h
      | true =>
          refine Spec.seq (Q := fun _ => Counted limit (max 1 limit + (depth - 3)))
            (Spec.change fun p h => (counted_keepDirFd h _ _).mono hroom) fun _ => ?_
          exact .ret fun _ h => h

theorem counted_maybeUpdateMtime (a : Nat) (seenMTime : Int) :
    Keeps (Counted limit n) (maybeUpdateMtime a seenMTime) := by
  refine .change fun p h => counted_adjust h fun acc _ => ?_
  split <;> rfl

theorem counted_openLastAt (acc : AccessorBase) (parentFd : Nat) (path : NodePath)
    (flags : OpenFlags) :
    Keeps (Counted limit n) (openLastAt d haveOpenat2 acc parentFd path flags) := by
  refine .seq (counted_openBeneath (a := 0) _ _ _ id).1 fun opened => ?_
  cases opened with
  | symlinkNotAllowed p => exact .raise _
  | fd i => exact .ret _
  | failed e => exact .ret _
  | sysError code => exact .ret _

theorem keeps_mapError {I : Process → Prop} {x : AccessM α} (f : AccessError → AccessError)
    (hx : Keeps I x) : Keeps I (mapError f x) := by
  intro p h
  have hrun := hx p h
  unfold mapError
  cases heq : x p with
  | ok y q =>
      rw [heq] at hrun
      exact hrun
  | error e q =>
      rw [heq] at hrun
      exact hrun

variable (d haveOpenat2 limit) in
/-- The steps of the member functions keep the counter. -/
theorem closed_counted (depth : Nat) :
    Closed d haveOpenat2 (fun path => path.length ≤ depth)
      fun {_} x => Keeps (Counted limit (max 1 limit + (depth - 3))) x where
  ret := .ret
  raise := .raise
  seq := .seq
  mapError f hx := keeps_mapError f hx
  getAccessor := counted_getAccessor
  maybeUpdateMtime := counted_maybeUpdateMtime
  fstat _ := counted_sys _
  fstatat _ _ := counted_sys _
  descriptorToPath _ := counted_sys _
  reopen _ := counted_sys _
  readdir _ := counted_sys _
  openLastAt := counted_openLastAt
  openParentAndUpsert _ path ignoreMissing hpath :=
    counted_openParentAndUpsert path hpath ignoreMissing

-- ============================================================================
-- Whole uses
-- ============================================================================

/-- The number of components of the path of an action. -/
def Act.depth : Act → Nat
  | .maybeLstat _ path | .readFile _ path | .readDirectory _ path | .readLink _ path
  | .enter _ path => path.length
  | _ => 0

theorem counted_add {acc : Accessor} (hacc : acc.cached = 0) :
    Keeps (Counted limit n) (add acc) := by
  intro p h
  refine ⟨?_, h.limit, h.le⟩
  change p.globalDirFdCount = ((p.accessors ++ [some acc]).map cachedOf).sum
  rw [List.map_append, List.sum_append, h.held]
  change p.held = p.held + (acc.cached + 0)
  rw [hacc]
  rfl

/-- An accessor keeps nothing any more. -/
theorem counted_invalidateCache (a : Nat) :
    Spec (Counted limit n) (invalidateCache a)
      (fun _ p => Counted limit n p ∧ cachedOf (p.accessor a) = 0)
      (fun _ => Counted limit n) := by
  refine .change fun p h => ?_
  have hadjust := held_adjust (p := p) (a := a) Accessor.emptied
  have hemptied : cachedOf ((p.accessor a).map Accessor.emptied) = 0 := by
    cases p.accessor a with
    | none => rfl
    | some acc => exact cached_emptied acc
  have hcount : ((p.accessor a).map Accessor.cached).getD 0 = cachedOf (p.accessor a) := rfl
  have hheld := h.held
  have hle := h.le
  refine ⟨⟨?_, h.limit, ?_⟩, ?_⟩
  · change p.globalDirFdCount - cachedOf (p.accessor a) = (p.adjust a Accessor.emptied).held
    omega
  · exact (Nat.sub_le _ _).trans hle
  · change cachedOf ((p.adjust a Accessor.emptied).accessor a) = 0
    rw [accessor_adjust, if_pos rfl]
    exact hemptied

theorem counted_drop (a : Nat) :
    Spec (fun p => Counted limit n p ∧ cachedOf (p.accessor a) = 0) (drop a)
      (fun _ => Counted limit n) (fun _ => Counted limit n) := by
  refine .change fun p h => ⟨?_, h.1.limit, h.1.le⟩
  have hsum := sum_modify p.accessors a fun _ => none
  have hnone : cachedOf (p.accessors[a]?.map fun _ => (none : Option Accessor)).join = 0 := by
    cases p.accessors[a]? <;> rfl
  have hcached : cachedOf p.accessors[a]?.join = 0 := h.2
  have hheld := h.1.held
  unfold Process.held at hheld
  change p.globalDirFdCount = ((p.accessors.modify a fun _ => none).map cachedOf).sum
  omega

theorem counted_destroy (a : Nat) : Keeps (Counted limit n) (destroy a) :=
  Spec.seq (counted_invalidateCache a) fun _ => counted_drop a

variable (d haveOpenat2) in
theorem counted_perform {depth : Nat} (act : Act) (hact : act.depth ≤ depth) :
    Keeps (Counted limit (max 1 limit + (depth - 3))) (perform d haveOpenat2 act) := by
  have hclosed := closed_counted limit d haveOpenat2 depth
  cases act with
  | make dirFd displayPrefix trackLastModified dirFdCacheSize =>
      refine .seq (counted_add ?_) fun _ => .ret _
      by_cases hsize : dirFdCacheSize = 0
      · rw [if_pos hsize]
        rfl
      · rw [if_neg hsize]
        rfl
  | maybeLstat a path => exact .seq (hclosed.maybeLstat_of hact) fun _ => .ret _
  | readFile a path => exact .seq (hclosed.readFile_of hact) fun _ => .ret _
  | readDirectory a path => exact .seq (hclosed.readDirectory_of hact) fun _ => .ret _
  | readLink a path => exact .seq (hclosed.readLink_of hact) fun _ => .ret _
  | getLastModified a => exact .seq (counted_getAccessor a) fun _ => .ret _
  | enter a path =>
      refine .seq (counted_getAccessor a) fun acc => ?_
      refine .seq (hclosed.openSubdirectory_of hact) fun dirFd => ?_
      exact .seq (counted_add rfl) fun _ => .ret _
  | leave sub a =>
      refine .seq (counted_getAccessor sub) fun acc => ?_
      exact .seq (counted_maybeUpdateMtime a _) fun _ => .seq (counted_destroy sub) fun _ => .ret _
  | invalidateCache a =>
      exact Spec.seq (counted_invalidateCache a) fun _ => Spec.ret fun _ h => h.1
  | destroy a => exact .seq (counted_destroy a) fun _ => .ret _

variable (d haveOpenat2) in
theorem counted_performAll {depth : Nat} {acts : List Act} (hacts : ∀ act ∈ acts, act.depth ≤ depth)
    (h : Counted limit (max 1 limit + (depth - 3)) p) :
    Counted limit (max 1 limit + (depth - 3)) (performAll d haveOpenat2 acts p).2 := by
  induction acts generalizing p with
  | nil => exact h
  | cons act acts ih =>
      have hrest := fun {q : Process} => ih (p := q) fun act hact =>
        hacts act (List.mem_cons_of_mem _ hact)
      have hperform := counted_perform d haveOpenat2 act
        (hacts act List.mem_cons_self) p h
      rw [performAll]
      cases hrun : perform d haveOpenat2 act p with
      | ok answer q =>
          rw [hrun] at hperform
          exact hrest hperform
      | error e q =>
          rw [hrun] at hperform
          exact hrest hperform

/-- Whatever is done with the accessors, whatever others do to the file system
    meanwhile and whichever calls fail: the counter is the number of cached
    descriptors, and it is above the limit by no more than the directories on
    the way to one path. -/
theorem fd_count (d : Disk) (haveOpenat2 : Bool) (limit depth : Nat) (acts : List Act)
    (hacts : ∀ act ∈ acts, act.depth ≤ depth) :
    (performAll d haveOpenat2 acts (Process.start limit)).2.globalDirFdCount =
        (performAll d haveOpenat2 acts (Process.start limit)).2.held ∧
      (performAll d haveOpenat2 acts (Process.start limit)).2.globalDirFdCount ≤
        max 1 limit + (depth - 3) := by
  have hstart : Counted limit (max 1 limit + (depth - 3)) (Process.start limit) :=
    ⟨rfl, rfl, Nat.zero_le _⟩
  have hend := counted_performAll d haveOpenat2 hacts hstart
  exact ⟨hend.held, hend.le⟩

end Members

namespace Sample

/-- The directories `/a/b/c`, and nothing in them. -/
def deep : Disk where
  fs _
    | 0 => .directory [(ascii "a", 1)]
    | 1 => .directory [(ascii "b", 2)]
    | 2 => .directory [(ascii "c", 3)]
    | _ => .directory []
  fails _ := none
  fresh _ := 4
  mtime _ _ := 0
  procPath _ _ := ascii "/r"

/-- Two accessors; the first one is evicted. -/
def deepActs : List Act :=
  let path := [ascii "a", ascii "b", ascii "c", ascii "f"]
  [.make 0 (ascii "/r") true 4, .make 0 (ascii "/r") true 4, .maybeLstat 0 path, .maybeLstat 1 path]

end Sample

/-- The bound is reached. -/
theorem fd_count_deep :
    (performAll Sample.deep false Sample.deepActs (Process.start 1)).2.globalDirFdCount =
        (performAll Sample.deep false Sample.deepActs (Process.start 1)).2.held ∧
      (performAll Sample.deep false Sample.deepActs (Process.start 1)).2.globalDirFdCount = 2 := by
  have hcount := fd_count Sample.deep false 1 4 Sample.deepActs (by decide +kernel)
  exact ⟨hcount.1, by decide +kernel⟩

end PosixAccessor
end NixStore
