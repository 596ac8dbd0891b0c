/-
  NixStore.Store.LinkFarm

  What the passes of `NixStore.Store.OptimiseStore` keep, whatever the order of
  their system calls: the links directory holds files under their own hashes,
  and every path inside a store path reads as it did.

  The argument is about names only.  A call either leaves a name alone or makes
  it stand for an inode that fits there: one with the hash of the name in the
  farm, one with the same contents inside a store path.  Hence what a thread
  learnt about a path stays true however late it acts on it, and a farm entry
  that has come and gone in between is as good as the one it saw.
-/

import NixStore.Store.OptimiseStore

namespace NixStore

/-- A file that may be in the farm. -/
def Object.farmable (canLinkSymlink : Bool) : Object → Prop
  | .regular _ _ => True
  | .symlink _ => canLinkSymlink = true

/-- A file that the passes link: it is not empty. -/
def Object.linkable (canLinkSymlink : Bool) : Object → Prop
  | .regular _ contents => contents ≠ []
  | .symlink _ => canLinkSymlink = true

theorem Object.linkable.farmable {canLinkSymlink : Bool} {o : Object}
    (h : o.linkable canLinkSymlink) : o.farmable canLinkSymlink := by
  cases o with
  | regular executable contents => trivial
  | symlink target => exact h

namespace Restoring

@[simp] theorem appendTo_nil (o : Object) : appendTo [] o = o := by
  cases o with
  | regular executable contents => rw [appendTo, List.append_nil]
  | symlink target => rfl

theorem appendTo_appendTo (a b : Bytes) (o : Object) :
    appendTo b (appendTo a o) = appendTo (a ++ b) o := by
  cases o with
  | regular executable contents => simp only [appendTo, List.append_assoc]
  | symlink target => rfl

end Restoring

namespace Optimising

open Restoring (appendTo appendTo_nil appendTo_appendTo)

-- ============================================================================
-- What an inode will hold
-- ============================================================================

/-- What an inode holds once its buffer has been flushed. -/
def complete (s : Optimising) (i : Nat) : Object := appendTo (s.buffered i) (s.fs.inodes i).object

/-- What a name stands for once all buffers have been flushed. -/
def shows (s : Optimising) : Entry → Node Object
  | .directory => .directory
  | .object i => .object (s.complete i)

/-- What is at a path inside the store once all buffers have been flushed. -/
def shown (s : Optimising) (p : NodePath) : Option (Node Object) :=
  (s.fs.names (.store p)).map s.shows

section Invariant

variable (store : StoreDirConfig) (canLinkSymlink : Bool)

/-- Every entry of the farm is a file that hashes to its name: a regular file,
    or a symlink where these can be linked. -/
def FarmInvariant (fs : StoreFs) : Prop :=
  ∀ h e, fs.names (.farm h) = some e → ∃ i, e = .object i ∧
    (fs.inodes i).object.farmable canLinkSymlink ∧
    hashPath store (fs.inodes i).object = .ok h

/-- No two files of the store have the same hash. -/
def CollisionFree (s : Optimising) : Prop :=
  ∀ k k' i i' h, s.fs.names k = some (.object i) → s.fs.names k' = some (.object i') →
    hashPath store (s.complete i) = .ok h → hashPath store (s.complete i') = .ok h →
    s.complete i = s.complete i'

/-- A state that the passes may start in. -/
structure Starts (s : Optimising) : Prop where
  farm : FarmInvariant store canLinkSymlink s.fs
  /-- Nothing in the farm is open. -/
  closed : ∀ h i, s.fs.names (.farm h) = some (.object i) → s.buffered i = []
  optimisers : ∀ n, (s.optimisers n).pc = .next
  /-- The hashes of an import are those of its files. -/
  fileHashes : ∀ n p h i, (s.optimisers n).fileHashes p = some h →
    s.fs.names (.store p) = some (.object i) → (s.complete i).type = .regular →
    hashPath store (s.complete i) = .ok h
  /-- `tryDedup` is called with the hash and the size of its file. -/
  dedups : ∀ n d, s.dedups n = some d → d.pc = .lstat ∧ ∃ i executable contents,
    s.fs.names (.store d.key) = some (.object i) ∧ s.complete i = .regular executable contents ∧
    d.size = contents.length ∧ hashPath store (s.complete i) = .ok d.hash

/-- The names as they were, but for inodes that fit. -/
structure Kept (s₀ s : Optimising) : Prop where
  /-- Buffers have been flushed in part. -/
  flushed : ∀ i, ∃ b, s₀.buffered i = b ++ s.buffered i ∧
    (s.fs.inodes i).object = appendTo b (s₀.fs.inodes i).object
  named : ∀ k i, s.fs.names k = some (.object i) → ∃ k₀, s₀.fs.names k₀ = some (.object i)
  farm : ∀ h e, s.fs.names (.farm h) = some e → ∃ i, e = .object i ∧ s.buffered i = [] ∧
    (s₀.complete i).farmable canLinkSymlink ∧ hashPath store (s₀.complete i) = .ok h
  stays : ∀ p, s₀.fs.names (.store p) ≠ none →
    (s.fs.names (.store p)).map s₀.shows = s₀.shown p
  fresh : ∀ p, s.fs.names (.store p) ≠ none → s₀.fs.names (.store p) ≠ none ∨
    ∃ n d, s₀.dedups n = some d ∧ .store p = dedupTemp d.key
  opened : ∀ p i, s.fs.names (.store p) = some (.object i) → s.buffered i ≠ [] →
    s₀.fs.names (.store p) = some (.object i)

/-- An inode fits at a name. -/
def FitsAt (s₀ : Optimising) (o : Object) : Location → Prop
  | .farm h => hashPath store o = .ok h
  | .tempLink _ _ => True
  | .store p =>
      if s₀.fs.names (.store p) = none then ∃ n d, s₀.dedups n = some d ∧ .store p = dedupTemp d.key
      else s₀.shown p = some (.object o)

/-- What a name may come to stand for. -/
def Fits (s₀ s : Optimising) (k : Location) : Option Entry → Prop
  | none => ∀ p, k = .store p → s₀.fs.names k = none
  | some .directory => False
  | some (.object i) => (∃ k₀, s₀.fs.names k₀ = some (.object i)) ∧ s.buffered i = [] ∧
      (s₀.complete i).linkable canLinkSymlink ∧ FitsAt store s₀ (s₀.complete i) k

/-- A call has changed some names. -/
def Relinked (s₀ s : Optimising) (fs' : StoreFs) : Prop :=
  fs'.inodes = s.fs.inodes ∧
  ∀ k, fs'.names k = s.fs.names k ∨ Fits store canLinkSymlink s₀ s k (fs'.names k)

end Invariant

variable {store : StoreDirConfig} {canLinkSymlink : Bool} {s₀ s s' : Optimising}

-- ============================================================================
-- Names
-- ============================================================================

theorem Kept.complete_eq (h : Kept store canLinkSymlink s₀ s) (i : Nat) :
    s.complete i = s₀.complete i := by
  obtain ⟨b, hb, hobject⟩ := h.flushed i
  rw [complete, complete, hobject, appendTo_appendTo, hb]

/-- A file without a buffer holds what it should. -/
theorem Kept.object_eq (h : Kept store canLinkSymlink s₀ s) {i : Nat} (hi : s.buffered i = []) :
    (s.fs.inodes i).object = s₀.complete i := by
  rw [← h.complete_eq, complete, hi, appendTo_nil]

theorem kept_start (h : Starts store canLinkSymlink s₀) : Kept store canLinkSymlink s₀ s₀ where
  flushed i := ⟨[], rfl, (appendTo_nil _).symm⟩
  named k i hk := ⟨k, hk⟩
  farm hash e he := by
    obtain ⟨i, rfl, hfarm, hhash⟩ := h.farm hash e he
    have hclosed := h.closed hash i he
    have hobject : s₀.complete i = (s₀.fs.inodes i).object := by
      rw [complete, hclosed, appendTo_nil]
    exact ⟨i, rfl, hclosed, by rw [hobject]; exact hfarm, by rw [hobject]; exact hhash⟩
  stays p _ := rfl
  fresh p hp := .inl hp
  opened p i hp _ := hp

theorem Kept.farmInvariant (h : Kept store canLinkSymlink s₀ s) :
    FarmInvariant store canLinkSymlink s.fs := by
  intro hash e he
  obtain ⟨i, rfl, hclosed, hfarm, hhash⟩ := h.farm hash e he
  rw [← h.object_eq hclosed] at hfarm hhash
  exact ⟨i, rfl, hfarm, hhash⟩

/-- A farm entry with the hash of a file is the file. -/
theorem Kept.farm_unique (h : Kept store canLinkSymlink s₀ s) (hfree : CollisionFree store s₀)
    {hash : Hash} {i : Nat} {p : NodePath} {o : Object}
    (hi : s.fs.names (.farm hash) = some (.object i)) (hp : s₀.shown p = some (.object o))
    (ho : hashPath store o = .ok hash) : s.buffered i = [] ∧ s₀.complete i = o := by
  obtain ⟨i', heq, hclosed, -, hhash⟩ := h.farm hash _ hi
  cases heq
  obtain ⟨k₀, hk₀⟩ := h.named _ i hi
  obtain ⟨e, he, hshows⟩ := Option.map_eq_some_iff.mp hp
  cases e with
  | directory => cases hshows
  | object j =>
      cases hshows
      exact ⟨hclosed, hfree k₀ _ i j hash hk₀ he hhash ho⟩

/-- Names that have changed as they may. -/
theorem Kept.relinked (h : Kept store canLinkSymlink s₀ s) {fs' : StoreFs}
    (hfs : Relinked store canLinkSymlink s₀ s fs') (hs' : s'.fs = fs')
    (hbuffered : s'.buffered = s.buffered) : Kept store canLinkSymlink s₀ s' := by
  obtain ⟨hinodes, hnames⟩ := hfs
  subst hs'
  constructor
  · intro i
    rw [hbuffered, hinodes]
    exact h.flushed i
  · intro k i hk
    rcases hnames k with heq | hfits
    · exact h.named k i (heq ▸ hk)
    · rw [hk] at hfits
      exact hfits.1
  · intro hash e he
    rw [hbuffered]
    rcases hnames (.farm hash) with heq | hfits
    · exact h.farm hash e (heq ▸ he)
    · rw [he] at hfits
      cases e with
      | directory => exact hfits.elim
      | object i => exact ⟨i, rfl, hfits.2.1, hfits.2.2.1.farmable, hfits.2.2.2⟩
  · intro p hp
    rcases hnames (.store p) with heq | hfits
    · rw [heq]
      exact h.stays p hp
    · cases hname : s'.fs.names (.store p) with
      | none =>
          rw [hname] at hfits
          exact absurd (hfits p rfl) hp
      | some e =>
          rw [hname] at hfits
          cases e with
          | directory => exact hfits.elim
          | object i =>
              have hat := hfits.2.2.2
              rw [FitsAt, if_neg hp] at hat
              exact hat.symm
  · intro p hp
    rcases hnames (.store p) with heq | hfits
    · exact h.fresh p (heq ▸ hp)
    · cases hname : s'.fs.names (.store p) with
      | none => exact absurd hname hp
      | some e =>
          rw [hname] at hfits
          cases e with
          | directory => exact hfits.elim
          | object i =>
              have hat := hfits.2.2.2
              by_cases hold : s₀.fs.names (.store p) = none
              · rw [FitsAt, if_pos hold] at hat
                exact .inr hat
              · exact .inl hold
  · intro p i hp hi
    rw [hbuffered] at hi
    rcases hnames (.store p) with heq | hfits
    · exact h.opened p i (heq ▸ hp) hi
    · rw [hp] at hfits
      exact absurd hfits.2.1 hi

/-- Some of a buffer is written. -/
theorem Kept.flush (h : Kept store canLinkSymlink s₀ s) (ino n : Nat)
    (hnames : s'.fs.names = s.fs.names)
    (hinodes : ∀ i, (s'.fs.inodes i).object = if i = ino then
      appendTo ((s.buffered ino).take n) (s.fs.inodes ino).object else (s.fs.inodes i).object)
    (hbuffered : ∀ i, s'.buffered i = if i = ino then (s.buffered ino).drop n else s.buffered i) :
    Kept store canLinkSymlink s₀ s' := by
  have hnil : ∀ i, s.buffered i = [] → s'.buffered i = [] := by
    intro i hi
    rw [hbuffered]
    split
    · next heq => rw [← heq, hi, List.drop_nil]
    · exact hi
  constructor
  · intro i
    obtain ⟨b, hb, hobject⟩ := h.flushed i
    rw [hinodes, hbuffered]
    by_cases heq : i = ino
    · subst heq
      refine ⟨b ++ (s.buffered i).take n, ?_, ?_⟩
      · rw [if_pos rfl, List.append_assoc, List.take_append_drop, hb]
      · rw [if_pos rfl, hobject, appendTo_appendTo]
    · rw [if_neg heq, if_neg heq]
      exact ⟨b, hb, hobject⟩
  · rw [hnames]
    exact h.named
  · intro hash e he
    rw [hnames] at he
    obtain ⟨i, heq, hclosed, hfarm⟩ := h.farm hash e he
    exact ⟨i, heq, hnil i hclosed, hfarm⟩
  · rw [hnames]
    exact h.stays
  · rw [hnames]
    exact h.fresh
  · intro p i hp hi
    rw [hnames] at hp
    exact h.opened p i hp fun hclosed => hi (hnil i hclosed)

end Optimising

-- ============================================================================
-- Threads
-- ============================================================================

/-- The file whose hash is known. -/
def OptimisePc.visit : OptimisePc → Option Visit
  | .lookup v | .compare v _ | .unlink v | .addLink v | .again v | .link v => some v
  | .rename v _ | .remove v _ _ => some v
  | .next | .hash _ _ | .threw => none

/-- The path that a thread is at or comes to next. -/
def Optimiser.current (o : Optimiser) : Option NodePath :=
  match o.pc with
  | .next => o.todo.head?
  | .hash path _ => some path
  | pc => pc.visit.map Visit.path

/-- The temporary link that exists, and the path it is meant for. -/
def OptimisePc.holding (pid : Nat) : OptimisePc → Option (Location × NodePath)
  | .rename v counter | .remove v counter _ => some (.tempLink pid counter, v.path)
  | _ => none

/-- The temporary link of a thread. -/
def Optimiser.holding (o : Optimiser) : Option (Location × NodePath) := o.pc.holding o.pid

/-- The temporary link of `tryDedup`. -/
def Dedup.holding (d : Dedup) : Option (Location × NodePath) :=
  match d.pc with
  | .rename | .unlink => some (dedupTemp d.key, d.key)
  | _ => none

section Inversion

variable {store : StoreDirConfig} {canLinkSymlink : Bool}

/-- A call that changes no name and takes no temporary link: the thread goes on
    with the file it is at, or is done with it. -/
structure Quiet (x x' : OptimiseStep) : Prop where
  fs : x'.fs = x.fs
  before : x.thread.holding = none
  after : x'.thread.holding = none
  visit : x'.thread.pc.visit = none ∨ x'.thread.pc.visit = x.thread.pc.visit
  done : ∀ path st, x'.thread.pc ≠ .hash path st

/-- What one call of `optimisePath_` can do. -/
inductive Called (store : StoreDirConfig) (canLinkSymlink : Bool) (x x' : OptimiseStep) : Prop where
  | quiet : Quiet x x' → Called store canLinkSymlink x x'
  | found {path : NodePath} {rest : List NodePath} {st : Stat} {nlink : Nat} :
      x.thread.pc = .next → x.thread.todo = path :: rest →
      maybeLstat x.fs (.store path) nlink = some st → st.type ≠ .directory →
      skipped canLinkSymlink x.inodeHash st = false → x'.fs = x.fs → x'.thread.pc = .hash path st →
      Called store canLinkSymlink x x'
  | hashed {path : NodePath} {st : Stat} {hash : Hash} :
      x.thread.pc = .hash path st →
      ((st.type = .regular ∧ x.thread.fileHashes path = some hash) ∨
        hashAt store x.fs (.store path) = some hash) →
      x'.fs = x.fs → x'.thread.pc = .lookup ⟨path, st, hash⟩ → Called store canLinkSymlink x x'
  | unlinked {v : Visit} :
      x.thread.pc = .unlink v → x'.fs = x.fs.unlink (.farm v.hash) → x'.thread.pc = .addLink v →
      Called store canLinkSymlink x x'
  | added {v : Visit} :
      x.thread.pc = .addLink v → x.fs.link (.store v.path) (.farm v.hash) = some x'.fs →
      x'.thread.pc = .next → Called store canLinkSymlink x x'
  | linked {v : Visit} {counter : Nat} :
      x.thread.pc = .link v →
      x.fs.link (.farm v.hash) (.tempLink x.thread.pid counter) = some x'.fs →
      x'.thread.pc = .rename v counter → Called store canLinkSymlink x x'
  | renamed {v : Visit} {counter : Nat} :
      x.thread.pc = .rename v counter →
      x.fs.rename (.tempLink x.thread.pid counter) (.store v.path) = some x'.fs →
      x'.thread.pc = .next → Called store canLinkSymlink x x'
  | failed {v : Visit} {counter : Nat} {e : Errno} :
      x.thread.pc = .rename v counter → x'.fs = x.fs → x'.thread.pc = .remove v counter e →
      Called store canLinkSymlink x x'
  | removed {v : Visit} {counter : Nat} {e : Errno} :
      x.thread.pc = .remove v counter e →
      x'.fs = x.fs.unlink (.tempLink x.thread.pid counter) →
      x'.thread.pc = .next ∨ x'.thread.pc = .threw → Called store canLinkSymlink x x'

/-- A hard link that is made is the one that `link` makes. -/
theorem createHardLink_eq_ok {fs fs' : StoreFs} {src dst : Location} {fault : Option Errno}
    (h : createHardLink fs src dst fault = .ok fs') : fs.link src dst = some fs' := by
  unfold createHardLink at h
  split at h
  · cases h
  · split at h
    · cases h
    · split at h
      · next hlink =>
          cases h
          exact hlink
      · cases h

/-- A thread keeps what it was started with. -/
theorem optimisePathStep_thread {x x' : OptimiseStep} {ans : Answer}
    (h : optimisePathStep store canLinkSymlink x ans = some x') :
    x'.thread.pid = x.thread.pid ∧ x'.thread.fileHashes = x.thread.fileHashes := by
  unfold optimisePathStep at h
  grind

/-- The thread goes on at another place in the code. -/
theorem Called.goto {x : OptimiseStep} {pc pc' : OptimisePc} (hpc : x.thread.pc = pc)
    (hbefore : pc.holding x.thread.pid = none) (hafter : pc'.holding x.thread.pid = none)
    (hvisit : pc'.visit = none ∨ pc'.visit = pc.visit) (hdone : ∀ path st, pc' ≠ .hash path st) :
    Called store canLinkSymlink x { x with thread := { x.thread with pc := pc' } } := by
  refine .quiet ⟨rfl, ?_, hafter, ?_, hdone⟩
  · rw [Optimiser.holding, hpc]
    exact hbefore
  · rw [hpc]
    exact hvisit

/-- Each call of `optimisePath_` does one of these things. -/
theorem optimisePathStep_called {x x' : OptimiseStep} {ans : Answer}
    (h : optimisePathStep store canLinkSymlink x ans = some x') :
    Called store canLinkSymlink x x' := by
  cases hpc : x.thread.pc with
  -- what it finds at the next path: only a file that is not skipped is hashed
  | next =>
      have hnone : x.thread.holding = none := by rw [Optimiser.holding, hpc]; rfl
      simp only [optimisePathStep, hpc] at h
      split at h
      · cases h
      · next path rest htodo =>
          split at h
          · cases h
            exact .goto hpc rfl rfl (.inl rfl) nofun
          · next st hst =>
              split at h
              · cases h
                exact .quiet ⟨rfl, hnone, rfl, .inl rfl, nofun⟩
              · next htype =>
                  split at h
                  · cases h
                    exact .quiet ⟨rfl, hnone, rfl, .inl rfl, nofun⟩
                  · next hskip =>
                      cases h
                      exact .found hpc htodo hst htype (Bool.eq_false_iff.mpr hskip) rfl rfl
  | hash path st =>
      simp only [optimisePathStep, hpc] at h
      split at h
      · next hash hhash =>
          cases h
          refine .hashed hpc ?_ rfl rfl
          rw [Option.orElse_eq_orElse, Option.orElse_eq_or, Option.or_eq_some_iff] at hhash
          rcases hhash with hcaptured | ⟨-, hdisk⟩
          · split at hcaptured
            · next htype => exact .inl ⟨htype, hcaptured⟩
            · cases hcaptured
          · exact .inr hdisk
      · cases h
        exact .goto hpc rfl rfl (.inl rfl) nofun
  -- here and in the next case it only reads the farm
  | lookup v =>
      simp only [optimisePathStep, hpc] at h
      split at h
      · cases h
        exact .goto hpc rfl rfl (.inr rfl) nofun
      · split at h
        · cases h
          exact .goto hpc rfl rfl (.inr rfl) nofun
        · split at h
          · cases h
            exact .goto hpc rfl rfl (.inr rfl) nofun
          · split at h
            · cases h
              exact .goto hpc rfl rfl (.inl rfl) nofun
            · cases h
              exact .goto hpc rfl rfl (.inr rfl) nofun
  | compare v stLink =>
      simp only [optimisePathStep, hpc] at h
      split at h
      · cases h
        exact .goto hpc rfl rfl (.inl rfl) nofun
      · split at h
        · cases h
          exact .goto hpc rfl rfl (.inr rfl) nofun
        · split at h
          · cases h
            exact .goto hpc rfl rfl (.inl rfl) nofun
          · cases h
            exact .goto hpc rfl rfl (.inr rfl) nofun
  -- the calls that change a name
  | unlink v =>
      simp only [optimisePathStep, hpc] at h
      cases h
      exact .unlinked hpc rfl rfl
  | addLink v =>
      simp only [optimisePathStep, hpc] at h
      split at h
      · next fs hlink =>
          cases h
          exact .added hpc (createHardLink_eq_ok hlink) rfl
      · cases h
        exact .goto hpc rfl rfl (.inr rfl) nofun
      · cases h
        exact .goto hpc rfl rfl (.inl rfl) nofun
      · cases h
        exact .goto hpc rfl rfl (.inl rfl) nofun
  -- it was there after all: is it the same file by now?
  | again v =>
      simp only [optimisePathStep, hpc] at h
      split at h
      · cases h
        exact .goto hpc rfl rfl (.inl rfl) nofun
      · split at h
        · cases h
          exact .goto hpc rfl rfl (.inl rfl) nofun
        · cases h
          exact .goto hpc rfl rfl (.inr rfl) nofun
  | link v =>
      simp only [optimisePathStep, hpc] at h
      split at h
      · next fs hlink =>
          cases h
          exact .linked hpc (createHardLink_eq_ok hlink) rfl
      · cases h
        exact .goto hpc rfl rfl (.inl rfl) nofun
      · cases h
        exact .goto hpc rfl rfl (.inl rfl) nofun
      · cases h
        exact .goto hpc rfl rfl (.inl rfl) nofun
  -- the temporary link takes the place of the file, or is removed again
  | rename v counter =>
      simp only [optimisePathStep, hpc] at h
      split at h
      · next fs _ hrename =>
          cases h
          exact .renamed hpc hrename rfl
      · cases h
        exact .failed hpc rfl rfl
  | remove v counter e =>
      simp only [optimisePathStep, hpc] at h
      cases h
      refine .removed hpc rfl ?_
      show (if e = .tooManyLinks then OptimisePc.next else .threw) = .next ∨
        (if e = .tooManyLinks then OptimisePc.next else .threw) = .threw
      split
      · exact .inl rfl
      · exact .inr rfl
  | threw =>
      simp only [optimisePathStep, hpc] at h
      cases h

/-- What one call of `tryDedup` can do. -/
inductive Tried (fs : StoreFs) (d : Dedup) (fs' : StoreFs) (pc : WorkerPc) : Prop where
  | quiet : fs' = fs → d.holding = none → pc = .ready ∨ (pc = .link ∧ d.size ≠ 0) →
      Tried fs d fs' pc
  | linked : d.pc = .link → fs.link (.farm d.hash) (dedupTemp d.key) = some fs' → pc = .rename →
      Tried fs d fs' pc
  | renamed : d.pc = .rename → fs.rename (dedupTemp d.key) (.store d.key) = some fs' →
      pc = .ready → Tried fs d fs' pc
  | failed : d.pc = .rename → fs' = fs → pc = .unlink → Tried fs d fs' pc
  | removed : d.pc = .unlink → fs' = fs.unlink (dedupTemp d.key) → pc = .ready → Tried fs d fs' pc

theorem tryDedupStep_tried {fs : StoreFs} {d : Dedup} {fault : Option Errno} {x : StoreFs × Dedup}
    (h : tryDedupStep fs d fault = some x) :
    x.2 = { d with pc := x.2.pc } ∧ Tried fs d x.1 x.2.pc := by
  cases hpc : d.pc with
  | ready =>
      simp only [tryDedupStep, hpc] at h
      cases h
  | lstat =>
      have hnone : d.holding = none := by rw [Dedup.holding, hpc]
      simp only [tryDedupStep, hpc] at h
      split at h
      · next stLink hst =>
          cases h
          refine ⟨rfl, .quiet rfl hnone ?_⟩
          split at hst
          · cases hst
          · next hsize =>
              by_cases hsame : stLink.size ≠ d.size
              · exact .inl (if_pos hsame)
              · exact .inr ⟨if_neg hsame, hsize⟩
      · cases h
        exact ⟨rfl, .quiet rfl hnone (.inl rfl)⟩
  | link =>
      simp only [tryDedupStep, hpc] at h
      split at h
      · next fs' hlink =>
          cases h
          exact ⟨rfl, .linked hpc (createHardLink_eq_ok hlink) rfl⟩
      · cases h
        exact ⟨rfl, .quiet rfl (by rw [Dedup.holding, hpc]) (.inl rfl)⟩
  | rename =>
      simp only [tryDedupStep, hpc] at h
      split at h
      · next fs' hrename =>
          cases h
          exact ⟨rfl, .renamed hpc hrename rfl⟩
      · cases h
        exact ⟨rfl, .failed hpc rfl rfl⟩
  | unlink =>
      simp only [tryDedupStep, hpc] at h
      cases h
      exact ⟨rfl, .removed hpc rfl rfl⟩

end Inversion

namespace Optimising

open Restoring (appendTo)

-- ============================================================================
-- Invariant
-- ============================================================================

/-- A thread of `optimisePath_` or a call of `tryDedup`. -/
abbrev Actor := Nat ⊕ Nat

/-- The temporary link of an actor. -/
def holding (s : Optimising) : Actor → Option (Location × NodePath)
  | .inl n => (s.optimisers n).holding
  | .inr n => (s.dedups n).bind Dedup.holding

section Invariant

variable (store : StoreDirConfig) (canLinkSymlink : Bool)

/-- What `lstat` has found. -/
def Visited (s₀ : Optimising) (p : NodePath) (st : Stat) : Prop :=
  ∃ o, s₀.shown p = some (.object o) ∧ o.linkable canLinkSymlink ∧ st.type = o.type

/-- A file and its hash. -/
def Hashed (s₀ : Optimising) (p : NodePath) (hash : Hash) : Prop :=
  ∃ o, s₀.shown p = some (.object o) ∧ o.linkable canLinkSymlink ∧ hashPath store o = .ok hash

/-- A temporary link for a path: it has the contents of the path. -/
structure Holding (s₀ s : Optimising) (k : Location) (p : NodePath) : Prop where
  notFarm : ∀ h, k ≠ .farm h
  temp : ∀ q, k = .store q → s₀.fs.names k = none
  object : ∃ i, s.fs.names k = some (.object i) ∧ s.buffered i = [] ∧
    (s₀.complete i).linkable canLinkSymlink ∧ s₀.shown p = some (.object (s₀.complete i))

/-- What holds in every state of the passes. -/
structure Inv (s₀ s : Optimising) : Prop where
  kept : Kept store canLinkSymlink s₀ s
  fileHashes : ∀ n, (s.optimisers n).fileHashes = (s₀.optimisers n).fileHashes
  visited : ∀ n p st, (s.optimisers n).pc = .hash p st → Visited canLinkSymlink s₀ p st
  hashed : ∀ n v, (s.optimisers n).pc.visit = some v →
    Hashed store canLinkSymlink s₀ v.path v.hash
  dedups : ∀ n d, s.dedups n = some d → ∃ d₀, s₀.dedups n = some d₀ ∧ d = { d₀ with pc := d.pc }
  keys : ∀ n d₀, s₀.dedups n = some d₀ → ∃ d, s.dedups n = some d ∧ d.key = d₀.key
  nonempty : ∀ n d, s.dedups n = some d → d.pc ≠ .ready → d.pc ≠ .lstat → d.size ≠ 0
  held : ∀ a k p, s.holding a = some (k, p) → Holding canLinkSymlink s₀ s k p
  alone : ∀ a b k p q, s.holding a = some (k, p) → s.holding b = some (k, q) → a = b

end Invariant

variable {store : StoreDirConfig} {canLinkSymlink : Bool} {s₀ s s' : Optimising}

-- ============================================================================
-- Calls that change names
-- ============================================================================

theorem relinked_refl : Relinked store canLinkSymlink s₀ s s.fs := ⟨rfl, fun _ => .inl rfl⟩

theorem relinked_unlink {k : Location} (h : ∀ p, k = .store p → s₀.fs.names k = none) :
    Relinked store canLinkSymlink s₀ s (s.fs.unlink k) := by
  refine ⟨rfl, fun k' => ?_⟩
  rw [Fs.names_unlink]
  by_cases heq : k' = k
  · right
    rw [if_pos heq, heq]
    exact h
  · left
    rw [if_neg heq]

/-- A name that comes to stand for what another name stands for. -/
theorem relinked_copyName {src dst : Location} {i : Nat}
    (hkept : Kept store canLinkSymlink s₀ s) (hsrc : s.fs.names src = some (.object i))
    (hclosed : s.buffered i = []) (hlink : (s₀.complete i).linkable canLinkSymlink)
    (hfits : FitsAt store s₀ (s₀.complete i) dst) :
    Relinked store canLinkSymlink s₀ s (s.fs.copyName src dst) := by
  refine ⟨rfl, fun k => ?_⟩
  rw [Fs.names_copyName]
  by_cases heq : k = dst
  · right
    rw [if_pos heq, hsrc, heq]
    exact ⟨hkept.named src i hsrc, hclosed, hlink, hfits⟩
  · left
    rw [if_neg heq]

/-- `rename` of a temporary link. -/
theorem relinked_rename {k : Location} {p : NodePath} {fs' : StoreFs}
    (hkept : Kept store canLinkSymlink s₀ s) (hhold : Holding canLinkSymlink s₀ s k p)
    (h : s.fs.rename k (.store p) = some fs') : Relinked store canLinkSymlink s₀ s fs' := by
  obtain ⟨i, hk, hclosed, hlink, hshown⟩ := hhold.object
  have hp : s₀.fs.names (.store p) ≠ none := by
    intro hnone
    rw [shown, hnone] at hshown
    cases hshown
  have hfits : FitsAt store s₀ (s₀.complete i) (.store p) := by
    rw [FitsAt, if_neg hp]
    exact hshown
  obtain ⟨-, rfl | rfl⟩ := Fs.rename_eq_some h
  · exact relinked_refl
  · obtain ⟨-, hcopy⟩ := relinked_copyName hkept hk hclosed hlink hfits
    refine ⟨rfl, fun k' => ?_⟩
    rw [Fs.names_unlink]
    by_cases heq : k' = k
    · right
      rw [if_pos heq, heq]
      exact hhold.temp
    · rw [if_neg heq]
      exact hcopy k'

/-- What a call of an actor does to the names and to its temporary link. -/
inductive Move (store : StoreDirConfig) (canLinkSymlink : Bool) (s₀ s : Optimising) (a : Actor)
    (fs' : StoreFs) : Option (Location × NodePath) → Prop where
  | rest : fs' = s.fs → Move store canLinkSymlink s₀ s a fs' none
  | keep {x : Location × NodePath} : fs' = s.fs → s.holding a = some x →
      Move store canLinkSymlink s₀ s a fs' (some x)
  | unlinkFarm {hash : Hash} : fs' = s.fs.unlink (.farm hash) →
      Move store canLinkSymlink s₀ s a fs' none
  | add {p : NodePath} {hash : Hash} : s.fs.link (.store p) (.farm hash) = some fs' →
      Hashed store canLinkSymlink s₀ p hash →
      (∀ i, s.fs.names (.store p) = some (.object i) → s.buffered i = []) →
      Move store canLinkSymlink s₀ s a fs' none
  | take {k : Location} {p : NodePath} {hash : Hash} : s.fs.link (.farm hash) k = some fs' →
      Hashed store canLinkSymlink s₀ p hash → (∀ h, k ≠ .farm h) →
      (∀ q, k = .store q → ∃ n d, s₀.dedups n = some d ∧ k = dedupTemp d.key) →
      Move store canLinkSymlink s₀ s a fs' (some (k, p))
  | rename {k : Location} {p : NodePath} : s.holding a = some (k, p) →
      s.fs.rename k (.store p) = some fs' → Move store canLinkSymlink s₀ s a fs' none
  | drop {k : Location} {p : NodePath} : s.holding a = some (k, p) → fs' = s.fs.unlink k →
      Move store canLinkSymlink s₀ s a fs' none

variable {a : Actor} {fs' : StoreFs} {x : Option (Location × NodePath)}

/-- What is shown at a path is what the inode there will hold. -/
theorem Kept.shown_object (h : Kept store canLinkSymlink s₀ s) {p : NodePath} {o : Object}
    (hshown : s₀.shown p = some (.object o)) :
    ∃ i, s.fs.names (.store p) = some (.object i) ∧ s₀.complete i = o := by
  have hp : s₀.fs.names (.store p) ≠ none := by
    intro hnone
    rw [shown, hnone] at hshown
    cases hshown
  obtain ⟨e, he, hshows⟩ := Option.map_eq_some_iff.mp ((h.stays p hp).trans hshown)
  cases e with
  | directory => cases hshows
  | object i =>
      cases hshows
      exact ⟨i, he, rfl⟩

/-- Nothing that was there at the start is gone. -/
theorem Kept.absent (h : Kept store canLinkSymlink s₀ s) {p : NodePath}
    (hp : s.fs.names (.store p) = none) : s₀.fs.names (.store p) = none := by
  by_contra hold
  have hstays := h.stays p hold
  rw [hp] at hstays
  exact hold (Option.map_eq_none_iff.mp hstays.symm)

theorem Move.relinked (h : Inv store canLinkSymlink s₀ s) (hfree : CollisionFree store s₀)
    (hmove : Move store canLinkSymlink s₀ s a fs' x) : Relinked store canLinkSymlink s₀ s fs' := by
  cases hmove with
  | rest hfs => exact hfs ▸ relinked_refl
  | keep hfs _ => exact hfs ▸ relinked_refl
  | unlinkFarm hfs => exact hfs ▸ relinked_unlink nofun
  | add hlink hhashed hclosed =>
      obtain ⟨⟨i, hi⟩, -, rfl⟩ := Fs.link_eq_some hlink
      obtain ⟨o, hshown, ho, hhash⟩ := hhashed
      obtain ⟨i', hi', rfl⟩ := h.kept.shown_object hshown
      cases hi.symm.trans hi'
      exact relinked_copyName h.kept hi (hclosed i hi) ho hhash
  | @take k p hash hlink hhashed hnotFarm htemp =>
      obtain ⟨⟨i, hi⟩, habsent, rfl⟩ := Fs.link_eq_some hlink
      obtain ⟨o, hshown, ho, hhash⟩ := hhashed
      obtain ⟨hclosed, rfl⟩ := h.kept.farm_unique hfree hi hshown hhash
      refine relinked_copyName h.kept hi hclosed ho ?_
      cases k with
      | farm hash' => exact absurd rfl (hnotFarm hash')
      | tempLink pid counter => trivial
      | store q =>
          rw [FitsAt, if_pos (h.kept.absent habsent)]
          exact htemp q rfl
  | rename hhold hrename => exact relinked_rename h.kept (h.held a _ _ hhold) hrename
  | drop hhold hfs => exact hfs ▸ relinked_unlink (h.held a _ _ hhold).temp

/-- The temporary links of the others stay. -/
theorem Move.untouched (h : Inv store canLinkSymlink s₀ s)
    (hmove : Move store canLinkSymlink s₀ s a fs' x) {b : Actor} {k : Location} {p : NodePath}
    (hb : b ≠ a) (hhold : s.holding b = some (k, p)) : fs'.names k = s.fs.names k := by
  have hk := h.held b k p hhold
  obtain ⟨i, hi, -⟩ := hk.object
  cases hmove with
  | rest hfs => rw [hfs]
  | keep hfs _ => rw [hfs]
  | unlinkFarm hfs => rw [hfs, Fs.names_unlink, if_neg (hk.notFarm _)]
  | add hlink _ _ =>
      obtain ⟨-, -, rfl⟩ := Fs.link_eq_some hlink
      rw [Fs.names_copyName, if_neg (hk.notFarm _)]
  | take hlink _ _ _ =>
      obtain ⟨-, habsent, rfl⟩ := Fs.link_eq_some hlink
      rw [Fs.names_copyName, if_neg]
      intro heq
      rw [heq, habsent] at hi
      cases hi
  | @rename k' p' hhold' hrename =>
      have hne : k ≠ k' := by
        intro heq
        rw [heq] at hhold
        exact hb (h.alone b a k' p p' hhold hhold')
      have hne' : k ≠ .store p' := by
        intro heq
        obtain ⟨i', -, -, -, hshown⟩ := (h.held a _ _ hhold').object
        rw [shown, ← heq, hk.temp p' heq] at hshown
        cases hshown
      obtain ⟨-, rfl | rfl⟩ := Fs.rename_eq_some hrename
      · rfl
      · rw [Fs.names_unlink, if_neg hne, Fs.names_copyName, if_neg hne']
  | @drop k' p' hhold' hfs =>
      have hne : k ≠ k' := by
        intro heq
        rw [heq] at hhold
        exact hb (h.alone b a k' p p' hhold hhold')
      rw [hfs, Fs.names_unlink, if_neg hne]

/-- The temporary link of the actor itself is its own. -/
theorem Move.mine (h : Inv store canLinkSymlink s₀ s) (hfree : CollisionFree store s₀)
    {k : Location} {p : NodePath} (hmove : Move store canLinkSymlink s₀ s a fs' (some (k, p)))
    (hfs' : s'.fs = fs') (hbuffered : s'.buffered = s.buffered) :
    Holding canLinkSymlink s₀ s' k p ∧ ∀ b q, b ≠ a → s.holding b ≠ some (k, q) := by
  cases hmove with
  | keep hfs hhold =>
      obtain ⟨hnotFarm, htemp, hobject⟩ := h.held a k p hhold
      rw [← hbuffered, ← hfs, ← hfs'] at hobject
      exact ⟨⟨hnotFarm, htemp, hobject⟩, fun b q hb hhold' => hb (h.alone b a k q p hhold' hhold)⟩
  | take hlink hhashed hnotFarm htemp =>
      obtain ⟨⟨i, hi⟩, habsent, rfl⟩ := Fs.link_eq_some hlink
      obtain ⟨o, hshown, ho, hhash⟩ := hhashed
      obtain ⟨hclosed, rfl⟩ := h.kept.farm_unique hfree hi hshown hhash
      refine ⟨⟨hnotFarm, ?_, i, ?_, ?_, ho, hshown⟩, ?_⟩
      · rintro q rfl
        exact h.kept.absent habsent
      · rw [hfs', Fs.names_copyName, if_pos rfl]
        exact hi
      · rw [hbuffered]
        exact hclosed
      · intro b q _ hhold
        obtain ⟨i', hi', -⟩ := (h.held b k q hhold).object
        rw [habsent] at hi'
        cases hi'

/-- An actor makes a call, and the others keep what they hold. -/
theorem Inv.act (h : Inv store canLinkSymlink s₀ s) (hfree : CollisionFree store s₀) (a : Actor)
    (hmove : Move store canLinkSymlink s₀ s a s'.fs (s'.holding a))
    (hbuffered : s'.buffered = s.buffered)
    (hhashes : ∀ n, (s'.optimisers n).fileHashes = (s₀.optimisers n).fileHashes)
    (hvisited : ∀ n p st, (s'.optimisers n).pc = .hash p st → Visited canLinkSymlink s₀ p st)
    (hhashed : ∀ n v, (s'.optimisers n).pc.visit = some v →
      Hashed store canLinkSymlink s₀ v.path v.hash)
    (hdedups : ∀ n d, s'.dedups n = some d →
      ∃ d₀, s₀.dedups n = some d₀ ∧ d = { d₀ with pc := d.pc })
    (hkeys : ∀ n d₀, s₀.dedups n = some d₀ → ∃ d, s'.dedups n = some d ∧ d.key = d₀.key)
    (hnonempty : ∀ n d, s'.dedups n = some d → d.pc ≠ .ready → d.pc ≠ .lstat → d.size ≠ 0)
    (hothers : ∀ b, b ≠ a → s'.holding b = s.holding b) : Inv store canLinkSymlink s₀ s' := by
  have hmine : ∀ k p, s'.holding a = some (k, p) → Holding canLinkSymlink s₀ s' k p ∧
      ∀ b q, b ≠ a → s.holding b ≠ some (k, q) := by
    intro k p hhold
    rw [hhold] at hmove
    exact hmove.mine h hfree rfl hbuffered
  refine ⟨h.kept.relinked (hmove.relinked h hfree) rfl hbuffered, hhashes, hvisited, hhashed,
    hdedups, hkeys, hnonempty, ?_, ?_⟩
  · intro b k p hb
    by_cases heq : b = a
    · rw [heq] at hb
      exact (hmine k p hb).1
    · rw [hothers b heq] at hb
      obtain ⟨hnotFarm, htemp, i, hname, hrest⟩ := h.held b k p hb
      refine ⟨hnotFarm, htemp, i, ?_, ?_⟩
      · rw [hmove.untouched h heq hb]
        exact hname
      · rw [hbuffered]
        exact hrest
  · intro b c k p q hb hc
    by_cases hba : b = a
    · by_cases hca : c = a
      · rw [hba, hca]
      · rw [hba] at hb
        rw [hothers c hca] at hc
        exact absurd hc ((hmine k p hb).2 c q hca)
    · rw [hothers b hba] at hb
      by_cases hca : c = a
      · rw [hca] at hc
        exact absurd hb ((hmine k q hc).2 b p hba)
      · rw [hothers c hca] at hc
        exact h.alone b c k p q hb hc

-- ============================================================================
-- Steps
-- ============================================================================

/-- The file that a thread is at is not one that is still being restored, nor a
    temporary link of `tryDedup`. -/
def Apart (s : Optimising) : OptimiseAct → Prop
  | .optimise n _ => ∀ p, (s.optimisers n).current = some p →
      (∀ i, s.fs.names (.store p) = some (.object i) → s.buffered i = []) ∧
      ∀ m d, s.dedups m = some d → .store p ≠ dedupTemp d.key
  | _ => True

/-- What a thread knows and holds after its call. -/
structure Informed (store : StoreDirConfig) (canLinkSymlink : Bool) (s₀ s : Optimising) (n : Nat)
    (x : OptimiseStep) : Prop where
  visited : ∀ p st, x.thread.pc = .hash p st → Visited canLinkSymlink s₀ p st
  hashed : ∀ v, x.thread.pc.visit = some v → Hashed store canLinkSymlink s₀ v.path v.hash
  move : Move store canLinkSymlink s₀ s (.inl n) x.fs x.thread.holding

/-- A thread that is at a file, between its calls. -/
theorem Informed.of_visit {n : Nat} {x : OptimiseStep} {v : Visit}
    (hhashed : Hashed store canLinkSymlink s₀ v.path v.hash) (hvisit : x.thread.pc.visit = some v)
    (hmove : Move store canLinkSymlink s₀ s (.inl n) x.fs x.thread.holding) :
    Informed store canLinkSymlink s₀ s n x := by
  refine ⟨fun p st hpc => ?_, fun v' hv' => ?_, hmove⟩
  · rw [hpc] at hvisit
    cases hvisit
  · cases hvisit.symm.trans hv'
    exact hhashed

/-- A thread that is done with a file. -/
theorem Informed.of_done {n : Nat} {x : OptimiseStep}
    (hpc : x.thread.pc = .next ∨ x.thread.pc = .threw)
    (hmove : Move store canLinkSymlink s₀ s (.inl n) x.fs none) :
    Informed store canLinkSymlink s₀ s n x := by
  rcases hpc with hpc | hpc
  · refine ⟨fun p st => by rw [hpc]; nofun, fun v => by rw [hpc]; nofun, ?_⟩
    rw [Optimiser.holding, hpc]
    exact hmove
  · refine ⟨fun p st => by rw [hpc]; nofun, fun v => by rw [hpc]; nofun, ?_⟩
    rw [Optimiser.holding, hpc]
    exact hmove

/-- What is read at a path that is not open. -/
theorem Inv.read_at (h : Inv store canLinkSymlink s₀ s) {p : NodePath} {i : Nat}
    (hp : s.fs.names (.store p) = some (.object i)) (hclosed : s.buffered i = [])
    (htemp : ∀ m d, s.dedups m = some d → .store p ≠ dedupTemp d.key) :
    s₀.shown p = some (.object (s.fs.inodes i).object) := by
  rcases h.kept.fresh p (by rw [hp]; nofun) with hold | ⟨m, d₀, hd₀, heq⟩
  · rw [← h.kept.stays p hold, hp, h.kept.object_eq hclosed]
    rfl
  · obtain ⟨d, hd, hkey⟩ := h.keys m d₀ hd₀
    exact absurd (hkey ▸ heq) (htemp m d hd)

theorem linkable_of_not_skipped {inodeHash : List Nat} {o : Object} {st : Stat}
    (htype : st.type = o.type) (hsize : st.size = o.size)
    (h : skipped canLinkSymlink inodeHash st = false) : o.linkable canLinkSymlink := by
  simp only [skipped, decide_eq_false_iff_not, not_or] at h
  cases o with
  | regular executable contents =>
      rintro rfl
      exact h.2.2.1 ⟨htype, hsize⟩
  | symlink target =>
      by_contra hcannot
      exact h.1 ⟨htype, Bool.eq_false_iff.mpr hcannot⟩

theorem hashPath_of_hashAt {fs : StoreFs} {k : Location} {i : Nat} {hash : Hash}
    (hi : fs.names k = some (.object i)) (h : hashAt store fs k = some hash) :
    hashPath store (fs.inodes i).object = .ok hash := by
  rw [hashAt, Fs.read_object hi] at h
  change (hashPath store (fs.inodes i).object).toOption = some hash at h
  cases hhash : hashPath store (fs.inodes i).object with
  | error e =>
      rw [hhash] at h
      cases h
  | ok hash' =>
      rw [hhash] at h
      cases h
      rfl

/-- One call of `optimisePath_`. -/
theorem Inv.called (h : Inv store canLinkSymlink s₀ s) (hstart : Starts store canLinkSymlink s₀)
    {n : Nat} {ans : Answer} (hok : s.Apart (.optimise n ans))
    {x : OptimiseStep} {inodeHash : List Nat}
    (hcalled : Called store canLinkSymlink ⟨s.fs, inodeHash, s.optimisers n⟩ x)
    (hpid : x.thread.pid = (s.optimisers n).pid) : Informed store canLinkSymlink s₀ s n x := by
  -- the temporary link that it holds and the path it is at, read off its place
  have hhold : ∀ pc, (s.optimisers n).pc = pc →
      s.holding (.inl n) = pc.holding (s.optimisers n).pid := by
    rintro pc rfl
    rfl
  have hcurrent : ∀ v, (s.optimisers n).pc.visit = some v →
      (s.optimisers n).current = some v.path := by
    intro v hv
    unfold Optimiser.current
    split
    · next hpc =>
        rw [hpc] at hv
        cases hv
    · next hpc =>
        rw [hpc] at hv
        cases hv
    · rw [hv]
      rfl
  cases hcalled with
  | quiet hquiet =>
      obtain ⟨hfs, -, hafter, hvisit, hdone⟩ := hquiet
      refine ⟨fun p st hpc => absurd hpc (hdone p st), fun v hv => ?_, ?_⟩
      · rcases hvisit with hnone | hsame
        · cases hnone.symm.trans hv
        · exact h.hashed n v (hsame.symm.trans hv)
      · rw [hafter]
        exact .rest hfs
  -- nobody is restoring the file, so what is shown there is in the inode
  | @found path rest st nlink hpc htodo hst htype hskip hfs hpc' =>
      have hat : (s.optimisers n).current = some path := by
        simp only at hpc htodo
        rw [Optimiser.current, hpc, htodo]
        rfl
      obtain ⟨hclosed, htemp⟩ := hok path hat
      refine ⟨fun p st' hpc'' => ?_, fun v hv => ?_, ?_⟩
      · cases hpc'.symm.trans hpc''
        unfold maybeLstat at hst
        split at hst
        · cases hst
        · cases hst
          exact absurd rfl htype
        · next i hi =>
            have hshown := h.read_at hi (hclosed i hi) htemp
            cases hst
            exact ⟨_, hshown, linkable_of_not_skipped rfl rfl hskip, rfl⟩
      · rw [hpc'] at hv
        cases hv
      · rw [Optimiser.holding, hpc']
        exact .rest hfs
  -- a captured hash is that of the file at the start, a computed one of the inode now
  | @hashed path st hash hpc hhash hfs hpc' =>
      obtain ⟨o, hshown, hlink, htype⟩ := h.visited n path st hpc
      refine .of_visit (v := ⟨path, st, hash⟩) ⟨o, hshown, hlink, ?_⟩ (by rw [hpc']; rfl) ?_
      · rcases hhash with ⟨hregular, hcaptured⟩ | hdisk
        · obtain ⟨i, hi, rfl⟩ := (kept_start hstart).shown_object hshown
          simp only [h.fileHashes n] at hcaptured
          exact hstart.fileHashes n path hash i hcaptured hi (htype.symm.trans hregular)
        · obtain ⟨i, hi, rfl⟩ := h.kept.shown_object hshown
          have hat : (s.optimisers n).current = some path := by
            simp only at hpc
            rw [Optimiser.current, hpc]
          rw [← h.kept.object_eq ((hok path hat).1 i hi)]
          exact hashPath_of_hashAt hi hdisk
      · rw [Optimiser.holding, hpc']
        exact .rest hfs
  -- from here on the hash is known and a call changes a name
  | @unlinked v hpc hfs hpc' =>
      have hv := h.hashed n v (by simp only at hpc; rw [hpc]; rfl)
      refine .of_visit hv (by rw [hpc']; rfl) ?_
      rw [Optimiser.holding, hpc']
      exact .unlinkFarm hfs
  | @added v hpc hlink hpc' =>
      have hvisit : (s.optimisers n).pc.visit = some v := by simp only at hpc; rw [hpc]; rfl
      exact .of_done (.inl hpc')
        (.add hlink (h.hashed n v hvisit) (hok v.path (hcurrent v hvisit)).1)
  | @linked v counter hpc hlink hpc' =>
      have hv := h.hashed n v (by simp only at hpc; rw [hpc]; rfl)
      refine .of_visit hv (by rw [hpc']; rfl) ?_
      rw [Optimiser.holding, hpc', hpid]
      exact .take hlink hv nofun nofun
  | @renamed v counter hpc hrename hpc' =>
      exact .of_done (.inl hpc') (.rename (hhold _ hpc) hrename)
  | @failed v counter e hpc hfs hpc' =>
      have hv := h.hashed n v (by simp only at hpc; rw [hpc]; rfl)
      refine .of_visit hv (by rw [hpc']; rfl) ?_
      rw [Optimiser.holding, hpc', hpid]
      exact .keep hfs (hhold _ hpc)
  | @removed v counter e hpc hfs hpc' =>
      exact .of_done hpc' (.drop (hhold _ hpc) hfs)

/-- One step of a thread. -/
theorem Inv.optimise (h : Inv store canLinkSymlink s₀ s) (hstart : Starts store canLinkSymlink s₀)
    (hfree : CollisionFree store s₀) {n : Nat} {ans : Answer} (hok : s.Apart (.optimise n ans))
    (hstep : optimiseStep store canLinkSymlink s (.optimise n ans) = some s') :
    Inv store canLinkSymlink s₀ s' ∧ Relinked store canLinkSymlink s₀ s s'.fs := by
  obtain ⟨x, hx, rfl⟩ := Option.map_eq_some_iff.mp hstep
  obtain ⟨hpid, hhashes⟩ := optimisePathStep_thread hx
  obtain ⟨hvisited, hhashed, hmove⟩ := h.called hstart hok (optimisePathStep_called hx) hpid
  refine ⟨?_, hmove.relinked h hfree⟩
  refine h.act hfree (.inl n) ?_ rfl ?_ ?_ ?_ h.dedups h.keys h.nonempty ?_
  · simp only [holding, Function.update_self]
    exact hmove
  · intro m
    by_cases hm : m = n
    · subst hm
      simp only [Function.update_self]
      exact hhashes.trans (h.fileHashes m)
    · simp only [Function.update_of_ne hm]
      exact h.fileHashes m
  · intro m
    by_cases hm : m = n
    · subst hm
      simp only [Function.update_self]
      exact hvisited
    · simp only [Function.update_of_ne hm]
      exact h.visited m
  · intro m
    by_cases hm : m = n
    · subst hm
      simp only [Function.update_self]
      exact hhashed
    · simp only [Function.update_of_ne hm]
      exact h.hashed m
  · intro b hb
    cases b with
    | inl m =>
        have hm : m ≠ n := fun heq => hb (congrArg Sum.inl heq)
        simp only [holding, Function.update_of_ne hm]
    | inr m => rfl

/-- `tryDedup` is called with the hash of its file. -/
theorem Starts.hashed (h : Starts store canLinkSymlink s₀) {n : Nat} {d : Dedup}
    (hd : s₀.dedups n = some d) (hsize : d.size ≠ 0) :
    Hashed store canLinkSymlink s₀ d.key d.hash := by
  obtain ⟨-, i, executable, contents, hname, hcomplete, hlength, hhash⟩ := h.dedups n d hd
  refine ⟨s₀.complete i, ?_, ?_, hhash⟩
  · rw [shown, hname]
    rfl
  · rw [hcomplete]
    rintro rfl
    exact hsize hlength

/-- One call of `tryDedup`. -/
theorem Inv.tried (h : Inv store canLinkSymlink s₀ s) (hstart : Starts store canLinkSymlink s₀)
    {n : Nat} {d d' : Dedup} (hd : s.dedups n = some d) (hd' : d' = { d with pc := d'.pc })
    (htried : Tried s.fs d fs' d'.pc) :
    Move store canLinkSymlink s₀ s (.inr n) fs' d'.holding ∧
    (d'.pc ≠ .ready → d'.pc ≠ .lstat → d.size ≠ 0) := by
  obtain ⟨d₀, hd₀, heq⟩ := h.dedups n d hd
  have hkey : d'.key = d.key := by rw [hd']
  have hhold : s.holding (.inr n) = d.holding := by rw [holding, hd, Option.bind_some]
  cases htried with
  | quiet hfs _ hpc =>
      rcases hpc with hpc | ⟨hpc, hsize⟩
      · rw [Dedup.holding, hpc]
        exact ⟨.rest hfs, fun hready => absurd rfl hready⟩
      · rw [Dedup.holding, hpc]
        exact ⟨.rest hfs, fun _ _ => hsize⟩
  | linked hpc hlink hpc' =>
      have hsize := h.nonempty n d hd (by rw [hpc]; nofun) (by rw [hpc]; nofun)
      have hhashed := hstart.hashed hd₀ (by rw [heq] at hsize; exact hsize)
      rw [Dedup.holding, hpc', hkey]
      refine ⟨?_, fun _ _ => hsize⟩
      rw [heq] at hlink ⊢
      exact .take hlink hhashed nofun fun q _ => ⟨n, d₀, hd₀, rfl⟩
  | renamed hpc hrename hpc' =>
      rw [Dedup.holding, hpc] at hhold
      rw [Dedup.holding, hpc']
      exact ⟨.rename hhold hrename, fun hready => absurd rfl hready⟩
  | failed hpc hfs hpc' =>
      have hsize := h.nonempty n d hd (by rw [hpc]; nofun) (by rw [hpc]; nofun)
      rw [Dedup.holding, hpc] at hhold
      rw [Dedup.holding, hpc', hkey]
      exact ⟨.keep hfs hhold, fun _ _ => hsize⟩
  | removed hpc hfs hpc' =>
      rw [Dedup.holding, hpc] at hhold
      rw [Dedup.holding, hpc']
      exact ⟨.drop hhold hfs, fun hready => absurd rfl hready⟩

/-- One step of `tryDedup`. -/
theorem Inv.dedup (h : Inv store canLinkSymlink s₀ s) (hstart : Starts store canLinkSymlink s₀)
    (hfree : CollisionFree store s₀) {n : Nat} {fault : Option Errno}
    (hstep : optimiseStep store canLinkSymlink s (.dedup n fault) = some s') :
    Inv store canLinkSymlink s₀ s' ∧ Relinked store canLinkSymlink s₀ s s'.fs := by
  obtain ⟨d, hd, hrest⟩ := Option.bind_eq_some_iff.mp hstep
  obtain ⟨x, hx, rfl⟩ := Option.map_eq_some_iff.mp hrest
  obtain ⟨hd', htried⟩ := tryDedupStep_tried hx
  obtain ⟨hmove, hsize⟩ := h.tried hstart hd hd' htried
  obtain ⟨d₀, hd₀, heq⟩ := h.dedups n d hd
  refine ⟨?_, hmove.relinked h hfree⟩
  refine h.act hfree (.inr n) ?_ rfl h.fileHashes h.visited h.hashed ?_ ?_ ?_ ?_
  · simp only [holding, Function.update_self, Option.bind_some]
    exact hmove
  · intro m d'' hd''
    by_cases hm : m = n
    · subst hm
      simp only [Function.update_self, Option.some.injEq] at hd''
      refine ⟨d₀, hd₀, ?_⟩
      rw [← hd'', hd', heq]
    · simp only [Function.update_of_ne hm] at hd''
      exact h.dedups m d'' hd''
  · intro m d₁ hd₁
    by_cases hm : m = n
    · subst hm
      cases hd₀.symm.trans hd₁
      refine ⟨x.2, by simp only [Function.update_self], ?_⟩
      rw [hd', heq]
    · simp only [Function.update_of_ne hm]
      exact h.keys m d₁ hd₁
  · intro m d'' hd''
    by_cases hm : m = n
    · subst hm
      simp only [Function.update_self, Option.some.injEq] at hd''
      subst hd''
      intro hready hlstat
      rw [hd']
      exact hsize hready hlstat
    · simp only [Function.update_of_ne hm] at hd''
      exact h.nonempty m d'' hd''
  · intro b hb
    cases b with
    | inl m => rfl
    | inr m =>
        have hm : m ≠ n := fun heq => hb (congrArg Sum.inr heq)
        simp only [holding, Function.update_of_ne hm]

/-- The garbage collector looks at a link. -/
theorem Inv.gcLstat (h : Inv store canLinkSymlink s₀ s) (unused : Option Hash) :
    Inv store canLinkSymlink s₀ { s with unused } := by
  obtain ⟨⟨hflushed, hnamed, hfarm, hstays, hfresh, hopened⟩, hhashes, hvisited, hhashed, hdedups,
    hkeys, hnonempty, hheld, halone⟩ := h
  refine ⟨⟨hflushed, hnamed, hfarm, hstays, hfresh, hopened⟩, hhashes, hvisited, hhashed, hdedups,
    hkeys, hnonempty, fun a k p hhold => ?_, halone⟩
  obtain ⟨hnotFarm, htemp, hobject⟩ := hheld a k p hhold
  exact ⟨hnotFarm, htemp, hobject⟩

/-- The garbage collector deletes a link. -/
theorem Inv.gcUnlink (h : Inv store canLinkSymlink s₀ s) (hash : Hash) :
    Inv store canLinkSymlink s₀ { s with fs := s.fs.unlink (.farm hash), unused := none } := by
  have hfs : Relinked store canLinkSymlink s₀ s (s.fs.unlink (.farm hash)) := relinked_unlink nofun
  refine ⟨h.kept.relinked hfs rfl rfl, h.fileHashes, h.visited, h.hashed, h.dedups, h.keys,
    h.nonempty, fun a k p hhold => ?_, h.alone⟩
  obtain ⟨hnotFarm, htemp, i, hi, hrest⟩ := h.held a k p hhold
  refine ⟨hnotFarm, htemp, i, ?_, hrest⟩
  rw [Fs.names_unlink, if_neg (hnotFarm hash)]
  exact hi

/-- Some of a buffer is written. -/
theorem Inv.flush (h : Inv store canLinkSymlink s₀ s) {ino n : Nat}
    (hstep : optimiseStep store canLinkSymlink s (.flush ino n) = some s') :
    Inv store canLinkSymlink s₀ s' := by
  cases hstep
  have hbuffered : ∀ i, Function.update s.buffered ino ((s.buffered ino).drop n) i
      = if i = ino then (s.buffered ino).drop n else s.buffered i := fun i =>
    Function.update_apply _ _ _ _
  refine ⟨h.kept.flush ino n rfl (fun i => ?_) hbuffered, h.fileHashes, h.visited, h.hashed,
    h.dedups, h.keys, h.nonempty, fun a k p hhold => ?_, h.alone⟩
  · rw [Fs.inodes_modify]
    split <;> rfl
  · obtain ⟨hnotFarm, htemp, i, hi, hclosed, hrest⟩ := h.held a k p hhold
    refine ⟨hnotFarm, htemp, i, hi, ?_, hrest⟩
    simp only [hbuffered]
    split
    · next heq => rw [← heq, hclosed, List.drop_nil]
    · exact hclosed

/-- What a step makes a name stand for is not an empty file. -/
def LinksNonempty (s s' : Optimising) : Prop :=
  ∀ k i executable, s'.fs.names k = some (.object i) → s.fs.names k ≠ some (.object i) →
    (s'.fs.inodes i).object ≠ .regular executable []

theorem Relinked.linksNonempty (h : Relinked store canLinkSymlink s₀ s s'.fs)
    (hkept : Kept store canLinkSymlink s₀ s) : LinksNonempty s s' := by
  intro k i executable hk hchanged hempty
  rcases h.2 k with heq | hfits
  · exact hchanged (heq ▸ hk)
  · rw [hk] at hfits
    obtain ⟨-, hclosed, hlink, -⟩ := hfits
    rw [← hkept.object_eq hclosed, ← h.1, hempty] at hlink
    exact hlink rfl

theorem linksNonempty_of_names (h : s'.fs.names = s.fs.names) : LinksNonempty s s' :=
  fun _ _ _ hk hchanged => absurd (h ▸ hk) hchanged

/-- Every step keeps the invariant, and links no empty file. -/
theorem Inv.step (h : Inv store canLinkSymlink s₀ s) (hstart : Starts store canLinkSymlink s₀)
    (hfree : CollisionFree store s₀) {a : OptimiseAct} (hok : s.Apart a)
    (hstep : optimiseStep store canLinkSymlink s a = some s') :
    Inv store canLinkSymlink s₀ s' ∧ LinksNonempty s s' := by
  cases a with
  | optimise n ans =>
      obtain ⟨hinv, hfs⟩ := h.optimise hstart hfree hok hstep
      exact ⟨hinv, hfs.linksNonempty h.kept⟩
  | dedup n fault =>
      obtain ⟨hinv, hfs⟩ := h.dedup hstart hfree hstep
      exact ⟨hinv, hfs.linksNonempty h.kept⟩
  | flush ino n =>
      refine ⟨h.flush hstep, linksNonempty_of_names ?_⟩
      cases hstep
      rfl
  | gcLstat hash nlink =>
      obtain ⟨st, -, rfl⟩ := Option.map_eq_some_iff.mp hstep
      exact ⟨h.gcLstat _, linksNonempty_of_names rfl⟩
  | gcUnlink =>
      obtain ⟨hash, -, rfl⟩ := Option.map_eq_some_iff.mp hstep
      refine ⟨h.gcUnlink hash, Relinked.linksNonempty ?_ h.kept⟩
      exact relinked_unlink nofun

theorem inv_start (h : Starts store canLinkSymlink s₀) : Inv store canLinkSymlink s₀ s₀ := by
  have hnone : ∀ a, s₀.holding a = none := by
    intro a
    cases a with
    | inl n => rw [holding, Optimiser.holding, h.optimisers n]; rfl
    | inr n =>
        rw [holding]
        cases hd : s₀.dedups n with
        | none => rfl
        | some d => rw [Option.bind_some, Dedup.holding, (h.dedups n d hd).1]
  refine ⟨kept_start h, fun _ => rfl, ?_, ?_, ?_, ?_, ?_, ?_, ?_⟩
  · intro n p st hpc
    cases (h.optimisers n).symm.trans hpc
  · intro n v hv
    rw [h.optimisers n] at hv
    cases hv
  · exact fun n d hd => ⟨d, hd, rfl⟩
  · exact fun n d hd => ⟨d, hd, rfl⟩
  · intro n d hd _ hlstat
    exact absurd (h.dedups n d hd).1 hlstat
  · intro a k p hhold
    cases (hnone a).symm.trans hhold
  · intro a b k p q hhold
    cases (hnone a).symm.trans hhold

/-- What holds in every state that the passes lead to from `s₀`. -/
structure Preserved (store : StoreDirConfig) (canLinkSymlink : Bool) (s₀ s : Optimising) :
    Prop where
  farm : FarmInvariant store canLinkSymlink s.fs
  /-- A path reads as it did, plus some of the bytes that were still in its
      buffer. -/
  contents : ∀ p i, s₀.fs.names (.store p) = some (.object i) →
    ∃ j b, s.fs.names (.store p) = some (.object j) ∧ b <+: s₀.buffered i ∧
      (s.fs.inodes j).object = appendTo b (s₀.fs.inodes i).object
  directories : ∀ p, s₀.fs.names (.store p) = some .directory →
    s.fs.names (.store p) = some .directory
  /-- A new name is a temporary link of `tryDedup`. -/
  absent : ∀ p, s₀.fs.names (.store p) = none → s.fs.names (.store p) ≠ none →
    ∃ n d, s₀.dedups n = some d ∧ .store p = dedupTemp d.key
  /-- The next step links no empty file. -/
  nonempty : ∀ a s', s.Apart a → optimiseStep store canLinkSymlink s a = some s' →
    LinksNonempty s s'

theorem Kept.contents (h : Kept store canLinkSymlink s₀ s) {p : NodePath} {i : Nat}
    (hp : s₀.fs.names (.store p) = some (.object i)) :
    ∃ j b, s.fs.names (.store p) = some (.object j) ∧ b <+: s₀.buffered i ∧
      (s.fs.inodes j).object = appendTo b (s₀.fs.inodes i).object := by
  have hshown : s₀.shown p = some (.object (s₀.complete i)) := by
    rw [shown, hp]
    rfl
  obtain ⟨j, hj, hcomplete⟩ := h.shown_object hshown
  by_cases hclosed : s.buffered j = []
  · exact ⟨j, s₀.buffered i, hj, List.prefix_refl _, (h.object_eq hclosed).trans hcomplete⟩
  · cases hp.symm.trans (h.opened p j hj hclosed)
    obtain ⟨b, hb, hobject⟩ := h.flushed i
    exact ⟨i, b, hj, ⟨s.buffered i, hb.symm⟩, hobject⟩

variable (store canLinkSymlink) in
/-- Whatever the order of the calls, the farm has every file under its own hash,
    every path inside a store path reads as it did, and no empty file is linked. -/
theorem optimising_preserved (s₀ : Optimising) (hstart : Starts store canLinkSymlink s₀)
    (hfree : CollisionFree store s₀) (s : Optimising)
    (hreach : (optimising store canLinkSymlink s₀).Reachable Apart s) :
    Preserved store canLinkSymlink s₀ s := by
  have hinv : Inv store canLinkSymlink s₀ s := by
    refine hreach.invariant ?_ ?_
    · rintro t rfl
      exact inv_start hstart
    · intro t t' a ht hok hstep
      exact (ht.step hstart hfree hok hstep).1
  refine ⟨hinv.kept.farmInvariant, fun p i hp => hinv.kept.contents hp, ?_, ?_, ?_⟩
  · intro p hp
    have hstays := hinv.kept.stays p (by rw [hp]; nofun)
    rw [shown, hp] at hstays
    obtain ⟨e, he, hshows⟩ := Option.map_eq_some_iff.mp hstays
    cases e with
    | directory => exact he
    | object i => cases hshows
  · intro p hp hnew
    rcases hinv.kept.fresh p hnew with hold | htemp
    · exact absurd hp hold
    · exact htemp
  · intro a s' hok hstep
    exact (hinv.step hstart hfree hok hstep).2

/-- Nothing is being restored. -/
def Settled (s : Optimising) : Prop := (∀ i, s.buffered i = []) ∧ ∀ n, s.dedups n = none

theorem Settled.apart (h : s.Settled) (a : OptimiseAct) : s.Apart a := by
  cases a with
  | optimise n ans =>
      refine fun p _ => ⟨fun i _ => h.1 i, fun m d hd => ?_⟩
      rw [h.2 m] at hd
      cases hd
  | dedup n fault => trivial
  | flush ino n => trivial
  | gcLstat hash nlink => trivial
  | gcUnlink => trivial

theorem Settled.step (h : s.Settled) {a : OptimiseAct}
    (hstep : optimiseStep store canLinkSymlink s a = some s') : s'.Settled := by
  cases a with
  | optimise n ans =>
      obtain ⟨x, -, rfl⟩ := Option.map_eq_some_iff.mp hstep
      exact h
  | dedup n fault =>
      rw [optimiseStep, h.2 n] at hstep
      cases hstep
  | flush ino n =>
      cases hstep
      refine ⟨fun i => ?_, h.2⟩
      simp only [Function.update_apply, h.1 ino, List.drop_nil]
      split
      · rfl
      · exact h.1 i
  | gcLstat hash nlink =>
      obtain ⟨st, -, rfl⟩ := Option.map_eq_some_iff.mp hstep
      exact h
  | gcUnlink =>
      obtain ⟨hash, -, rfl⟩ := Option.map_eq_some_iff.mp hstep
      exact h

/-- Where nothing is being restored, every run is one of passes that are apart. -/
theorem Settled.reachable (h : s₀.Settled) {l : List OptimiseAct}
    (hrun : (optimising store canLinkSymlink s₀).run l s₀ = some s) :
    (optimising store canLinkSymlink s₀).Reachable Apart s :=
  System.Reachable.run_keeping (fun _ a hI => hI.apart a) (fun _ _ _ hI hstep => hI.step hstep)
    (.init rfl) h hrun

namespace Sample

open DiskStore.Sample (measured)

/-- The archive of a symlink to `x`. -/
def symlinkNar : Bytes :=
  match dumpPath NarNode.plain defaultPathFilter (.symlink (ascii "x")) with
  | .ok nar => nar
  | .error _ => []

/-- Its SHA-256. -/
def symlinkHash : Hash where
  algo := .sha256
  bytes := (List.range 32).map fun i => UInt8.ofNat
    (0xbb941e86b07436518c49d07e4afba93e6343ba70f36e17bdeaa76f3f32f4dfb4 / 256 ^ (31 - i))
  size_eq := rfl

/-- SHA-256 of the files in the samples. -/
def digest : (algo : HashAlgorithm) → Bytes → { h : Hash // h.algo = algo }
  | .sha256, b =>
      if b = symlinkNar then ⟨symlinkHash, rfl⟩ else measured.hashString .sha256 b
  | algo, b => measured.hashString algo b

/-- The usual store directory with that digest. -/
def linked : StoreDirConfig := { measured with hashString := digest }

/-- Two store paths with the same file. -/
def twice (o : Object) : StoreFs where
  names k :=
    if k = .store [ascii "w996igw5fhzp5pmk8g9bfv99is99b0ap-a"] then some (.object 0)
    else if k = .store [ascii "18lgixwxhz5snvah4h2di8flfsvagl0m-b"] then some (.object 1)
    else none
  inodes _ := { object := o, writable := false }
  next := 2
  allocated := by
    intro k i h
    split at h
    · cases h
      decide
    · split at h
      · cases h
        decide
      · cases h

/-- One thread that optimises both. -/
def start (o : Object) : Optimising where
  fs := twice o
  buffered _ := []
  inodeHash _ := []
  optimisers n := {
    pid := n
    repair := false
    fileHashes := fun _ => none
    todo := if n = 0 then [[ascii "w996igw5fhzp5pmk8g9bfv99is99b0ap-a"],
      [ascii "18lgixwxhz5snvah4h2di8flfsvagl0m-b"]] else []
    pc := .next
    filesLinked := 0
    bytesFreed := 0 }
  dedups _ := none
  unused := none

/-- A call that the kernel lets pass. -/
def call : OptimiseAct := .optimise 0 { nlink := 1, entries := [], fault := none, counter := 0 }

theorem starts_start (o : Object) : Starts store canLinkSymlink (start o) := by
  have hfarm : ∀ h, (start o).fs.names (.farm h) = none := fun h => rfl
  refine ⟨fun h e he => ?_, fun _ _ _ => rfl, fun _ => rfl, nofun, nofun⟩
  rw [hfarm h] at he
  cases he

theorem collisionFree_start (o : Object) : CollisionFree store (start o) :=
  fun _ _ _ _ _ _ _ _ _ => rfl

theorem settled_start (o : Object) : (start o).Settled := ⟨fun _ => rfl, fun _ => rfl⟩

end Sample

theorem optimising_preserved_twice : ∃ s,
    (optimising Sample.linked true (Sample.start (.regular false (ascii "x")))).run
      (List.replicate 9 Sample.call) (Sample.start (.regular false (ascii "x"))) = some s ∧
    s.fs.names (.store [ascii "18lgixwxhz5snvah4h2di8flfsvagl0m-b"]) = some (.object 0) ∧
    Preserved Sample.linked true (Sample.start (.regular false (ascii "x"))) s := by
  obtain ⟨s, hrun, hname⟩ : ∃ s,
      (optimising Sample.linked true (Sample.start (.regular false (ascii "x")))).run
        (List.replicate 9 Sample.call) (Sample.start (.regular false (ascii "x"))) = some s ∧
      s.fs.names (.store [ascii "18lgixwxhz5snvah4h2di8flfsvagl0m-b"]) = some (.object 0) := by
    refine Option.map_eq_some_iff.mp ?_
    decide +kernel
  exact ⟨s, hrun, hname, optimising_preserved Sample.linked true _ (Sample.starts_start _)
    (Sample.collisionFree_start _) s ((Sample.settled_start _).reachable hrun)⟩

/-- A symlink is linked into the farm too. -/
theorem optimising_farms_symlinks :
    Starts Sample.linked true (Sample.start (.symlink (ascii "x"))) ∧
    CollisionFree Sample.linked (Sample.start (.symlink (ascii "x"))) ∧
    FarmInvariant Sample.linked false (Sample.start (.symlink (ascii "x"))).fs ∧
    ∃ s, (optimising Sample.linked true (Sample.start (.symlink (ascii "x")))).Reachable Apart s ∧
      ¬ FarmInvariant Sample.linked false s.fs := by
  have hfarm : Starts Sample.linked false (Sample.start (.symlink (ascii "x"))) :=
    Sample.starts_start _
  refine ⟨Sample.starts_start _, Sample.collisionFree_start _, hfarm.farm, ?_⟩
  obtain ⟨s, hrun, hentry⟩ : ∃ s,
      (optimising Sample.linked true (Sample.start (.symlink (ascii "x")))).run
        (List.replicate 4 Sample.call) (Sample.start (.symlink (ascii "x"))) = some s ∧
      (s.fs.names (.farm Sample.symlinkHash), (s.fs.inodes 0).object)
        = (some (.object 0), .symlink (ascii "x")) := by
    refine Option.map_eq_some_iff.mp ?_
    decide +kernel
  refine ⟨s, (Sample.settled_start _).reachable hrun, fun hregular => ?_⟩
  obtain ⟨hname, hobject⟩ := Prod.mk.inj hentry
  obtain ⟨i, heq, hfarmable, -⟩ := hregular _ _ hname
  cases heq
  rw [hobject] at hfarmable
  cases hfarmable

end Optimising

end NixStore
