/-
  NixStore.Store.AutoGCInv

  The invariant of the threads that use one store: who has the lock, what the
  threads and promises of the collections have to do with `gcRunning`,
  `gcFuture` and `gcThread`, and what a call of `autoGC` and the destructor know
  where they are.
-/

import NixStore.Store.AutoGC

namespace NixStore
namespace AutoGC

-- ============================================================================
-- The lock
-- ============================================================================

/-- Whether a call at this place has the lock. -/
def ClientPc.locked : ClientPc → Bool
  | .look _ | .getAvail .. | .join .. | .start .. => true
  | _ => false

def Phase.locked : Phase → Bool
  | .using_ _ | .store _ | .finish => true
  | _ => false

def DestructorPc.locked : DestructorPc → Bool
  | .look | .join => true
  | _ => false

variable {Cid : Type}

def State.locked (s : State Cid) : Agent Cid → Bool
  | .client c => (s.pc c).locked
  | .collector g => (s.thread g).locked
  | .destructor => s.destructor.locked

/-- Who is where the lock is needed has it. -/
def OwnerInv (s : State Cid) : Prop := ∀ a, s.owner = some a ↔ s.locked a = true

variable {s s' : State Cid} {a : Agent Cid}

theorem OwnerInv.keep (h : OwnerInv s) (howner : s'.owner = s.owner)
    (hlocked : ∀ b, s'.locked b = s.locked b) : OwnerInv s' := by
  intro b
  rw [howner, hlocked]
  exact h b

theorem OwnerInv.acquire (h : OwnerInv s) (hfree : s.owner = none) (howner : s'.owner = some a)
    (ha : s'.locked a = true) (hothers : ∀ b, b ≠ a → s'.locked b = s.locked b) :
    OwnerInv s' := by
  intro b
  rw [howner]
  by_cases hb : b = a
  · subst hb
    exact iff_of_true rfl ha
  · rw [hothers b hb, ← h b, hfree]
    exact iff_of_false (fun heq => hb (Option.some.inj heq).symm) (Option.some_ne_none b).symm

theorem OwnerInv.release (h : OwnerInv s) (ha : s.locked a = true) (howner : s'.owner = none)
    (ha' : s'.locked a = false) (hothers : ∀ b, b ≠ a → s'.locked b = s.locked b) :
    OwnerInv s' := by
  intro b
  rw [howner]
  refine iff_of_false (Option.some_ne_none b).symm ?_
  by_cases hb : b = a
  · subst hb
    rw [ha']
    exact Bool.false_ne_true
  · rw [hothers b hb, ← h b, (h a).mpr ha]
    exact fun heq => hb (Option.some.inj heq).symm

theorem OwnerInv.unique (h : OwnerInv s) {b : Agent Cid} (ha : s.locked a = true)
    (hb : s.locked b = true) : b = a := by
  have ha := (h a).mpr ha
  have hb := (h b).mpr hb
  rw [ha] at hb
  exact (Option.some.inj hb).symm

-- ============================================================================
-- Collections
-- ============================================================================

/-- Whether a thread has not yet run `wakeup`. -/
def Phase.active : Phase → Bool
  | .notStarted | .leaving | .exited => false
  | _ => true

/-- What the threads and the promises have to do with the shared state. -/
structure CollectionInv (settings : Settings) (s : State Cid) : Prop where
  active : ∀ g, (s.thread g).active = true →
    g = s.gcFuture ∧ s.gcRunning = true ∧ s.promise g = .pending
  running : s.gcRunning = true →
    1 ≤ s.gcFuture ∧ ((s.thread s.gcFuture).active = true ∨ s.promise s.gcFuture = .broken)
  pending : ∀ g, 1 ≤ g → g ≤ s.gcFuture → s.promise g = .pending → (s.thread g).active = true
  later : ∀ g, s.gcFuture < g → s.thread g = .notStarted ∧ s.promise g = .pending
  earlier : ∀ g, g < s.gcFuture → s.thread g = .notStarted ∨ s.thread g = .exited
  joinable : s.joinable = false → s.thread s.gcFuture = .notStarted ∨ s.thread s.gcFuture = .exited
  joins : s.joinable = true → s.thread s.gcFuture ≠ .notStarted
  maxFreed : ∀ g, s.thread g ≠ .notStarted →
    0 < s.maxFreed g ∧ s.maxFreed g ≤ settings.maxFree
  broken : ∀ g, s.promise g = .broken → g = s.gcFuture ∧ s.gcRunning = true

/-- The part of the state that `CollectionInv` is about is the same. -/
structure SameCollections (s s' : State Cid) : Prop where
  gcRunning : s'.gcRunning = s.gcRunning
  gcFuture : s'.gcFuture = s.gcFuture
  joinable : s'.joinable = s.joinable
  thread : s'.thread = s.thread
  promise : s'.promise = s.promise
  maxFreed : s'.maxFreed = s.maxFreed

variable {settings : Settings}

theorem CollectionInv.congr (h : CollectionInv settings s) (hsame : SameCollections s s') :
    CollectionInv settings s' := by
  obtain ⟨hr, hf, hj, ht, hp, hm⟩ := hsame
  refine ⟨?_, ?_, ?_, ?_, ?_, ?_, ?_, ?_, ?_⟩
  all_goals simp only [hr, hf, hj, ht, hp, hm]
  exacts [h.active, h.running, h.pending, h.later, h.earlier, h.joinable, h.joins, h.maxFreed,
    h.broken]

/-- A collector thread goes on. -/
theorem CollectionInv.setThread (h : CollectionInv settings s) {g : Nat} {phase : Phase}
    (hg : (s.thread g).active = true) (hphase : phase.active = true) :
    CollectionInv settings (s.setThread g phase) := by
  obtain ⟨rfl, hrunning, hpending⟩ := h.active g hg
  have hself : (s.setThread s.gcFuture phase).thread s.gcFuture = phase :=
    Function.update_self ..
  have hother : ∀ g, g ≠ s.gcFuture → (s.setThread s.gcFuture phase).thread g = s.thread g :=
    fun g hne => Function.update_of_ne hne ..
  have hstarted : phase ≠ .notStarted := by
    rintro rfl
    cases hphase
  have hstarted' : s.thread s.gcFuture ≠ .notStarted := by
    intro hnot
    rw [hnot] at hg
    cases hg
  refine ⟨fun g hactive => ?_, fun _ => ⟨(h.running hrunning).1, Or.inl ?_⟩,
    fun g h1 hle hp => ?_, fun g hlt => ?_, fun g hlt => ?_, fun hj => ?_, fun _ => ?_,
    fun g hne => ?_, h.broken⟩
  · by_cases hgf : g = s.gcFuture
    · exact ⟨hgf, hrunning, hgf ▸ hpending⟩
    · rw [hother g hgf] at hactive
      exact h.active g hactive
  · change ((s.setThread s.gcFuture phase).thread s.gcFuture).active = true
    rw [hself, hphase]
  · by_cases hgf : g = s.gcFuture
    · subst hgf
      rw [hself, hphase]
    · rw [hother g hgf]
      exact h.pending g h1 hle hp
  · rw [hother g (Nat.ne_of_gt hlt)]
    exact h.later g hlt
  · rw [hother g (Nat.ne_of_lt hlt)]
    exact h.earlier g hlt
  · rcases h.joinable hj with hnot | hexited
    · exact absurd hnot hstarted'
    · rw [hexited] at hg
      cases hg
  · change (s.setThread s.gcFuture phase).thread s.gcFuture ≠ _
    rw [hself]
    exact hstarted
  · by_cases hgf : g = s.gcFuture
    · subst hgf
      exact h.maxFreed _ hstarted'
    · rw [hother g hgf] at hne
      exact h.maxFreed g hne

/-- `wakeup`. -/
theorem CollectionInv.finish (h : CollectionInv settings s) {g : Nat}
    (hg : (s.thread g).active = true) (hrunning : s'.gcRunning = false)
    (hfuture : s'.gcFuture = s.gcFuture) (hjoinable : s'.joinable = s.joinable)
    (hthread : s'.thread = Function.update s.thread g .leaving)
    (hpromise : s'.promise = Function.update s.promise g .fulfilled)
    (hmaxFreed : s'.maxFreed = s.maxFreed) : CollectionInv settings s' := by
  obtain ⟨rfl, -, -⟩ := h.active g hg
  have hother : ∀ g, g ≠ s.gcFuture → s'.thread g = s.thread g :=
    fun g hne => by rw [hthread, Function.update_of_ne hne]
  have hself : s'.thread s.gcFuture = .leaving := by rw [hthread, Function.update_self]
  have hstarted : s.thread s.gcFuture ≠ .notStarted := by
    intro hnot
    rw [hnot] at hg
    cases hg
  refine ⟨fun g hactive => ?_, fun htrue => ?_,
    fun g h1 hle hp => ?_, fun g hlt => ?_, fun g hlt => ?_, fun hj => ?_, fun _ => ?_,
    fun g hne => ?_, fun g hbroken => ?_⟩
  all_goals rw [hfuture] at *
  · by_cases hgf : g = s.gcFuture
    · subst hgf
      rw [hself] at hactive
      cases hactive
    · rw [hother g hgf] at hactive
      exact absurd (h.active g hactive).1 hgf
  · rw [hrunning] at htrue
    cases htrue
  · by_cases hgf : g = s.gcFuture
    · subst hgf
      rw [hpromise, Function.update_self] at hp
      cases hp
    · rw [hpromise, Function.update_of_ne hgf] at hp
      rw [hother g hgf]
      exact h.pending g h1 hle hp
  · rw [hother g (Nat.ne_of_gt hlt), hpromise, Function.update_of_ne (Nat.ne_of_gt hlt)]
    exact h.later g hlt
  · rw [hother g (Nat.ne_of_lt hlt)]
    exact h.earlier g hlt
  · rcases h.joinable (hjoinable ▸ hj) with hnot | hexited
    · exact absurd hnot hstarted
    · rw [hexited] at hg
      cases hg
  · rw [hself]
    exact Phase.noConfusion
  · rw [hmaxFreed]
    by_cases hgf : g = s.gcFuture
    · subst hgf
      exact h.maxFreed _ hstarted
    · rw [hother g hgf] at hne
      exact h.maxFreed g hne
  · by_cases hgf : g = s.gcFuture
    · subst hgf
      rw [hpromise, Function.update_self] at hbroken
      cases hbroken
    · rw [hpromise, Function.update_of_ne hgf] at hbroken
      exact absurd (h.broken g hbroken).1 hgf

/-- A thread that has run `wakeup` ends. -/
theorem CollectionInv.exit (h : CollectionInv settings s) {g : Nat}
    (hg : s.thread g = .leaving) : CollectionInv settings (s.setThread g .exited) := by
  have hfuture : g = s.gcFuture := by
    rcases Nat.lt_trichotomy g s.gcFuture with hlt | heq | hlt
    · rcases h.earlier g hlt with hthread | hthread <;> rw [hg] at hthread <;> cases hthread
    · exact heq
    · have := (h.later g hlt).1
      rw [hg] at this
      cases this
  subst hfuture
  have hself : (s.setThread s.gcFuture .exited).thread s.gcFuture = .exited :=
    Function.update_self ..
  have hother : ∀ g, g ≠ s.gcFuture → (s.setThread s.gcFuture .exited).thread g = s.thread g :=
    fun g hne => Function.update_of_ne hne ..
  refine ⟨fun g hactive => ?_, fun hrunning => ?_, fun g h1 hle hp => ?_, fun g hlt => ?_,
    fun g hlt => ?_, fun _ => Or.inr hself, fun _ => ?_, fun g hne => ?_, h.broken⟩
  · by_cases hgf : g = s.gcFuture
    · subst hgf
      rw [hself] at hactive
      cases hactive
    · rw [hother g hgf] at hactive
      exact h.active g hactive
  · refine ⟨(h.running hrunning).1, ?_⟩
    rcases (h.running hrunning).2 with hactive | hbroken
    · rw [hg] at hactive
      cases hactive
    · exact Or.inr hbroken
  · by_cases hgf : g = s.gcFuture
    · subst hgf
      have := h.pending s.gcFuture h1 le_rfl hp
      rw [hg] at this
      cases this
    · rw [hother g hgf]
      exact h.pending g h1 hle hp
  · rw [hother g (Nat.ne_of_gt hlt)]
    exact h.later g hlt
  · rw [hother g (Nat.ne_of_lt hlt)]
    exact h.earlier g hlt
  · change (s.setThread s.gcFuture .exited).thread s.gcFuture ≠ _
    rw [hself]
    exact Phase.noConfusion
  · by_cases hgf : g = s.gcFuture
    · subst hgf
      exact h.maxFreed _ (by rw [hg]; exact Phase.noConfusion)
    · rw [hother g hgf] at hne
      exact h.maxFreed g hne

/-- `gcThread.join()`. -/
theorem CollectionInv.join (h : CollectionInv settings s)
    (hexited : s.thread s.gcFuture = .exited ∨ s.joinable = false) (hjoinable : s'.joinable = false)
    (hrunning : s'.gcRunning = s.gcRunning) (hfuture : s'.gcFuture = s.gcFuture)
    (hthread : s'.thread = s.thread) (hpromise : s'.promise = s.promise)
    (hmaxFreed : s'.maxFreed = s.maxFreed) : CollectionInv settings s' := by
  refine ⟨?_, ?_, ?_, ?_, ?_, ?_, fun htrue => (by rw [hjoinable] at htrue; cases htrue), ?_, ?_⟩
  all_goals simp only [hrunning, hfuture, hthread, hpromise, hmaxFreed]
  · exact h.active
  · exact h.running
  · exact h.pending
  · exact h.later
  · exact h.earlier
  · intro _
    rcases hexited with hexited | hnot
    · exact Or.inr hexited
    · exact h.joinable hnot
  · exact h.maxFreed
  · exact h.broken

/-- A new collection: the thread is made, or it is not and the promise is lost. -/
theorem CollectionInv.start (h : CollectionInv settings s) (hidle : s.gcRunning = false)
    (hjoined : s.joinable = false) (hrunning : s'.gcRunning = true)
    (hfuture : s'.gcFuture = s.gcFuture + 1)
    (hmade : (∃ uses, s'.joinable = true ∧
        s'.thread = Function.update s.thread (s.gcFuture + 1) (.collecting uses) ∧
        s'.promise = s.promise ∧ 0 < s'.maxFreed (s.gcFuture + 1) ∧
        s'.maxFreed (s.gcFuture + 1) ≤ settings.maxFree ∧
        ∀ g, g ≠ s.gcFuture + 1 → s'.maxFreed g = s.maxFreed g) ∨
      s'.joinable = false ∧ s'.thread = s.thread ∧
        s'.promise = Function.update s.promise (s.gcFuture + 1) .broken ∧
        s'.maxFreed = s.maxFreed) : CollectionInv settings s' := by
  have hnone : ∀ g, (s.thread g).active = false := by
    intro g
    rw [← Bool.not_eq_true]
    intro hactive
    have := (h.active g hactive).2.1
    rw [hidle] at this
    cases this
  have hended : ∀ g, g ≤ s.gcFuture → s.thread g = .notStarted ∨ s.thread g = .exited := by
    intro g hle
    rcases Nat.lt_or_eq_of_le hle with hlt | rfl
    · exact h.earlier g hlt
    · exact h.joinable hjoined
  have hpending : ∀ g, 1 ≤ g → g ≤ s.gcFuture → s.promise g ≠ .pending := by
    intro g h1 hle hp
    have := h.pending g h1 hle hp
    rw [hnone g] at this
    cases this
  have hkept : ∀ g, s.promise g ≠ .broken := by
    intro g hbroken
    have := (h.broken g hbroken).2
    rw [hidle] at this
    cases this
  obtain ⟨hnew, hnewPromise⟩ := h.later (s.gcFuture + 1) (Nat.lt_succ_self _)
  rcases hmade with ⟨uses, hj, ht, hp, hpos, hle, hm⟩ | ⟨hj, ht, hp, hm⟩
  · have hself : s'.thread (s.gcFuture + 1) = .collecting uses := by rw [ht, Function.update_self]
    have hother : ∀ g, g ≠ s.gcFuture + 1 → s'.thread g = s.thread g :=
      fun g hne => by rw [ht, Function.update_of_ne hne]
    refine ⟨fun g hactive => ?_, fun _ => ?_, fun g h1 hg hpg => ?_, fun g hlt => ?_,
      fun g hlt => ?_, fun hf => (by rw [hj] at hf; cases hf), fun _ => ?_, fun g hne => ?_,
      fun g hbroken => ?_⟩
    all_goals rw [hfuture] at *
    · by_cases hg : g = s.gcFuture + 1
      · exact ⟨hg, hrunning, by rw [hp, hg, hnewPromise]⟩
      · rw [hother g hg, hnone g] at hactive
        cases hactive
    · exact ⟨by omega, Or.inl (by rw [hself]; rfl)⟩
    · by_cases heq : g = s.gcFuture + 1
      · subst heq
        rw [hself]
        rfl
      · rw [hp] at hpg
        exact absurd hpg (hpending g h1 (by omega))
    · rw [hother g (by omega), hp]
      exact h.later g (by omega)
    · rw [hother g (by omega)]
      exact hended g (by omega)
    · rw [hself]
      exact Phase.noConfusion
    · by_cases heq : g = s.gcFuture + 1
      · subst heq
        exact ⟨hpos, hle⟩
      · rw [hother g heq] at hne
        rw [hm g heq]
        exact h.maxFreed g hne
    · rw [hp] at hbroken
      exact absurd hbroken (hkept g)
  · refine ⟨fun g hactive => ?_, fun _ => ?_, fun g h1 hg hpg => ?_, fun g hlt => ?_,
      fun g hlt => ?_, fun _ => ?_, fun hf => (by rw [hj] at hf; cases hf), fun g hne => ?_,
      fun g hbroken => ?_⟩
    all_goals rw [hfuture] at *
    · rw [ht, hnone g] at hactive
      cases hactive
    · exact ⟨by omega, Or.inr (by rw [hp, Function.update_self])⟩
    · rw [hp] at hpg
      by_cases heq : g = s.gcFuture + 1
      · subst heq
        rw [Function.update_self] at hpg
        cases hpg
      · rw [Function.update_of_ne heq] at hpg
        exact absurd hpg (hpending g h1 (by omega))
    · rw [ht, hp, Function.update_of_ne (by omega)]
      exact h.later g (by omega)
    · rw [ht]
      exact hended g (by omega)
    · rw [ht]
      exact Or.inl hnew
    · rw [ht] at hne
      rw [hm]
      exact h.maxFreed g hne
    · by_cases heq : g = s.gcFuture + 1
      · exact ⟨heq, hrunning⟩
      · rw [hp, Function.update_of_ne heq] at hbroken
        exact absurd hbroken (hkept g)

-- ============================================================================
-- The invariant
-- ============================================================================

/-- What a call of `autoGC` knows where it is. -/
def Knows (settings : Settings) (s : State Cid) : ClientPc → Prop
  | .getAvail _ now => s.gcRunning = false ∧
      s.lastGCCheck + settings.minFreeCheckInterval ≤ now ∧ now ≤ s.clock
  | .join _ avail => s.gcRunning = false ∧ s.joinable = true ∧ avail < settings.minFree ∧
      avail < settings.maxFree
  | .start _ avail => s.gcRunning = false ∧ s.joinable = false ∧ avail < settings.minFree ∧
      avail < settings.maxFree
  | .wait _ g => 1 ≤ g ∧ g ≤ s.gcFuture
  | .idle | .wantLock _ | .look _ => True

/-- The destructor runs when nobody uses the store. -/
structure DestructorInv (s : State Cid) : Prop where
  called : s.destructor ≠ .notCalled → ∀ c, s.pc c = .idle
  wait : ∀ g, s.destructor = .wait g → g = s.gcFuture ∧ 1 ≤ g
  after : s.destructor = .wantLockAgain ∨ s.destructor = .join → s.gcRunning = false
  done : s.destructor = .done → s.joinable = false
  terminated : s.destructor = .terminated → ∃ g, s.promise g = .broken

/-- When the free space was looked at. -/
structure ClockInv (settings : Settings) (s : State Cid) : Prop where
  last : s.lastGCCheck ≤ s.clock
  checks : ∀ t ∈ s.checks, t ≤ s.lastGCCheck
  spaced : s.checks.Pairwise fun later earlier =>
    earlier + settings.minFreeCheckInterval ≤ later

/-- The invariant of the threads that use one store. -/
structure Inv (settings : Settings) (s : State Cid) : Prop where
  owner : OwnerInv s
  collections : CollectionInv settings s
  knows : ∀ c, Knows settings s (s.pc c)
  destructor : DestructorInv s
  clock : ClockInv settings s

/-- What a call without the lock knows stays true. -/
theorem Knows.mono {pc : ClientPc} (h : Knows settings s pc) (hpc : pc.locked = false)
    (hfuture : s.gcFuture ≤ s'.gcFuture) : Knows settings s' pc := by
  cases pc with
  | wait _ g => exact ⟨h.1, le_trans h.2 hfuture⟩
  | idle | wantLock _ => trivial
  | look _ | getAvail _ _ | join _ _ | start _ _ => cases hpc

/-- Who else is there while somebody has the lock. -/
theorem OwnerInv.client_unlocked (h : OwnerInv s) (ha : s.locked a = true) {c : Cid}
    (hc : a ≠ .client c) : (s.pc c).locked = false := by
  rw [← Bool.not_eq_true]
  exact fun hlocked => hc (h.unique (b := .client c) ha hlocked).symm

variable [DecidableEq Cid]

section ClientSteps

variable {c : Cid} {pc : ClientPc}

/-- A call moves on. -/
theorem Inv.clientMove (h : Inv settings s) (hpc : s'.pc = Function.update s.pc c pc)
    (hdestructor : s'.destructor = s.destructor) (hcalled : s.destructor = .notCalled)
    (howner : OwnerInv s') (hcollections : CollectionInv settings s')
    (hknows : Knows settings s' pc)
    (hothers : ∀ d, d ≠ c → Knows settings s (s.pc d) → Knows settings s' (s.pc d))
    (hclock : ClockInv settings s') : Inv settings s' where
  owner := howner
  collections := hcollections
  knows d := by
    rw [hpc]
    by_cases hd : d = c
    · subst hd
      rw [Function.update_self]
      exact hknows
    · rw [Function.update_of_ne hd]
      exact hothers d hd (h.knows d)
  destructor := by
    have hd : s'.destructor = .notCalled := hdestructor.trans hcalled
    refine ⟨fun hne => absurd hd hne, fun g hg => ?_, fun hg => ?_, fun hg => ?_, fun hg => ?_⟩
    all_goals rw [hd] at hg
    · cases hg
    · rcases hg with hg | hg <;> cases hg
    · cases hg
    · cases hg
  clock := hclock

omit [DecidableEq Cid] in
theorem Inv.not_called (h : Inv settings s) (hc : s.pc c ≠ .idle) :
    s.destructor = .notCalled := by
  by_contra hne
  exact hc (h.destructor.called hne c)

omit [DecidableEq Cid] in
/-- Only one call and the lock change. -/
structure OnlyClient (s s' : State Cid) (c : Cid) : Prop where
  clients : ∀ d, d ≠ c → s'.pc d = s.pc d
  threads : ∀ g, (s'.thread g).locked = (s.thread g).locked
  destructor : s'.destructor = s.destructor

omit [DecidableEq Cid] in
theorem OnlyClient.locked (h : OnlyClient s s' c) {b : Agent Cid} (hb : b ≠ .client c) :
    s'.locked b = s.locked b := by
  cases b with
  | client d =>
      change (s'.pc d).locked = (s.pc d).locked
      rw [h.clients d fun heq => hb (heq ▸ rfl)]
  | collector g => exact h.threads g
  | destructor =>
      change s'.destructor.locked = s.destructor.locked
      rw [h.destructor]

theorem onlyClient_setPc (t : State Cid) (hpc : t.pc = s.pc)
    (hthread : ∀ g, (t.thread g).locked = (s.thread g).locked)
    (hdestructor : t.destructor = s.destructor) : OnlyClient s (t.setPc c pc) c where
  clients d hd := by
    change Function.update t.pc c pc d = s.pc d
    rw [Function.update_of_ne hd, hpc]
  threads := hthread
  destructor := hdestructor

/-- What a call may change besides its place. -/
structure SameThreads (s t : State Cid) : Prop where
  pc : t.pc = s.pc
  threads : ∀ g, (t.thread g).locked = (s.thread g).locked
  destructor : t.destructor = s.destructor

theorem SameThreads.only {t : State Cid} (h : SameThreads s t) :
    OnlyClient s (t.setPc c pc) c :=
  onlyClient_setPc t h.pc h.threads h.destructor

theorem locked_setPc (t : State Cid) : (t.setPc c pc).locked (.client c) = pc.locked := by
  change (Function.update t.pc c pc c).locked = _
  rw [Function.update_self]

theorem OwnerInv.clientKeep {t : State Cid} (h : OwnerInv s) (ht : SameThreads s t)
    (howner : t.owner = s.owner) (hpc : pc.locked = (s.pc c).locked) :
    OwnerInv (t.setPc c pc) := by
  refine h.keep howner fun b => ?_
  by_cases hb : b = .client c
  · subst hb
    rw [locked_setPc, hpc]
    rfl
  · exact ht.only.locked hb

theorem OwnerInv.clientAcquire {t : State Cid} (h : OwnerInv s) (ht : SameThreads s t)
    (hfree : s.owner = none) (howner : t.owner = some (.client c)) (hpc : pc.locked = true) :
    OwnerInv (t.setPc c pc) :=
  h.acquire hfree howner (by rw [locked_setPc, hpc]) fun _ hb => ht.only.locked hb

theorem OwnerInv.clientRelease {t : State Cid} (h : OwnerInv s) (ht : SameThreads s t)
    (hc : (s.pc c).locked = true) (howner : t.owner = none) (hpc : pc.locked = false) :
    OwnerInv (t.setPc c pc) :=
  h.release (a := .client c) hc howner (by rw [locked_setPc, hpc]) fun _ hb => ht.only.locked hb

omit [DecidableEq Cid] in
/-- What the others know stays true while a call has the lock. -/
theorem Inv.others_mono (h : Inv settings s) (hc : (s.pc c).locked = true)
    (hfuture : s.gcFuture ≤ s'.gcFuture) (d : Cid) (hd : d ≠ c)
    (hk : Knows settings s (s.pc d)) : Knows settings s' (s.pc d) :=
  hk.mono (h.owner.client_unlocked (a := .client c) hc fun heq => hd (by cases heq; rfl)) hfuture

/-- The part of a call's step that starts a collection. -/
theorem Inv.start (h : Inv settings s) {sync : Bool} {avail : UInt64}
    (hpc : s.pc c = .start sync avail) {uses : Option Nat}
    (hs : AutoGC.clientStep settings s c (.start uses) = some s') : Inv settings s' := by
  have hcalled := h.not_called (c := c) (by rw [hpc]; exact ClientPc.noConfusion)
  have hlocked : (s.pc c).locked = true := by rw [hpc]; rfl
  have hknows := h.knows c
  rw [hpc] at hknows
  obtain ⟨hrunning, hjoinable, hmin, hmax⟩ := hknows
  have hnew := (h.collections.later (s.gcFuture + 1) (Nat.lt_succ_self _)).1
  simp only [AutoGC.clientStep, hpc] at hs
  cases uses with
  | some uses =>
      cases hs
      have hfreed : 0 < settings.maxFree - avail ∧ settings.maxFree - avail ≤ settings.maxFree := by
        rw [UInt64.lt_iff_toNat_lt] at hmax
        rw [UInt64.lt_iff_toNat_lt, UInt64.le_iff_toNat_le,
          UInt64.toNat_sub_of_le _ _ (UInt64.le_iff_toNat_le.mpr (Nat.le_of_lt hmax))]
        exact ⟨Nat.sub_pos_of_lt hmax, Nat.sub_le _ _⟩
      refine h.clientMove rfl rfl hcalled
        (h.owner.clientRelease ⟨rfl, fun g => ?_, rfl⟩ hlocked rfl rfl)
        (h.collections.start hrunning hjoinable rfl rfl (Or.inl ⟨uses, rfl, rfl, rfl, ?_, ?_, ?_⟩))
        ⟨Nat.succ_pos _, le_rfl⟩ (h.others_mono hlocked (Nat.le_succ _))
        ⟨h.clock.last, h.clock.checks, h.clock.spaced⟩
      · change (Function.update s.thread (s.gcFuture + 1) (.collecting uses) g).locked = _
        by_cases hg : g = s.gcFuture + 1
        · subst hg
          rw [Function.update_self, hnew]
          rfl
        · rw [Function.update_of_ne hg]
      · change 0 < Function.update s.maxFreed _ _ _
        rw [Function.update_self]
        exact hfreed.1
      · change Function.update s.maxFreed _ _ _ ≤ _
        rw [Function.update_self]
        exact hfreed.2
      · intro g hg
        exact Function.update_of_ne hg ..
  | none =>
      cases hs
      exact h.clientMove rfl rfl hcalled
        (h.owner.clientRelease ⟨rfl, fun _ => rfl, rfl⟩ hlocked rfl rfl)
        (h.collections.start hrunning hjoinable rfl rfl (Or.inr ⟨hjoinable, rfl, rfl, rfl⟩))
        trivial (h.others_mono hlocked (Nat.le_succ _))
        ⟨h.clock.last, h.clock.checks, h.clock.spaced⟩

/-- `getAvail` returns or throws. -/
theorem Inv.getAvail (h : Inv settings s) {sync : Bool} {now : Nat}
    (hpc : s.pc c = .getAvail sync now) {avail : Option UInt64}
    (hs : AutoGC.clientStep settings s c (.getAvail avail) = some s') : Inv settings s' := by
  have hcalled := h.not_called (c := c) (by rw [hpc]; exact ClientPc.noConfusion)
  have hlocked : (s.pc c).locked = true := by rw [hpc]; rfl
  have hknows := h.knows c
  rw [hpc] at hknows
  obtain ⟨hrunning, hspaced, hnow⟩ := hknows
  have hclock : ClockInv settings { s with lastGCCheck := now, checks := now :: s.checks } := by
    refine ⟨hnow, fun t ht => ?_, List.pairwise_cons.mpr ⟨fun t ht => ?_, h.clock.spaced⟩⟩
    · rcases List.mem_cons.mp ht with rfl | ht
      · exact le_rfl
      · exact le_trans (h.clock.checks t ht) (le_trans (Nat.le_add_right _ _) hspaced)
    · exact le_trans (Nat.add_le_add_right (h.clock.checks t ht) _) hspaced
  simp only [AutoGC.clientStep, hpc] at hs
  cases avail with
  | none =>
      cases hs
      exact h.clientMove rfl rfl hcalled
        (h.owner.clientRelease ⟨rfl, fun _ => rfl, rfl⟩ hlocked rfl rfl)
        (h.collections.congr ⟨rfl, rfl, rfl, rfl, rfl, rfl⟩) trivial (fun _ _ => id)
        ⟨h.clock.last, h.clock.checks, h.clock.spaced⟩
  | some avail =>
      simp only at hs
      split at hs
      · cases hs
        exact h.clientMove rfl rfl hcalled
          (h.owner.clientRelease ⟨rfl, fun _ => rfl, rfl⟩ hlocked rfl rfl)
          (h.collections.congr ⟨rfl, rfl, rfl, rfl, rfl, rfl⟩) trivial
          (h.others_mono hlocked le_rfl) ⟨hclock.last, hclock.checks, hclock.spaced⟩
      · next henough =>
          simp only [not_or, UInt64.not_le] at henough
          split at hs
          · cases hs
            exact h.clientMove rfl rfl hcalled
              (h.owner.clientRelease ⟨rfl, fun _ => rfl, rfl⟩ hlocked rfl rfl)
              (h.collections.congr ⟨rfl, rfl, rfl, rfl, rfl, rfl⟩) trivial
              (h.others_mono hlocked le_rfl) ⟨hclock.last, hclock.checks, hclock.spaced⟩
          · cases hs
            refine h.clientMove rfl rfl hcalled
              (h.owner.clientKeep ⟨rfl, fun _ => rfl, rfl⟩ rfl ?_)
              (h.collections.congr ⟨rfl, rfl, rfl, rfl, rfl, rfl⟩) ?_
              (h.others_mono hlocked le_rfl) ⟨hclock.last, hclock.checks, hclock.spaced⟩
            · rw [hlocked]
              split <;> rfl
            · split
              · next hj => exact ⟨hrunning, hj, henough.1, henough.2⟩
              · next hj =>
                  rw [Bool.not_eq_true] at hj
                  exact ⟨hrunning, hj, henough.1, henough.2⟩

/-- `autoGC` looks at `gcRunning` and at the clock. -/
theorem Inv.look (h : Inv settings s) {sync : Bool} (hpc : s.pc c = .look sync) {now : Nat}
    (hs : AutoGC.clientStep settings s c (.look now) = some s') : Inv settings s' := by
  have hcalled := h.not_called (c := c) (by rw [hpc]; exact ClientPc.noConfusion)
  have hlocked : (s.pc c).locked = true := by rw [hpc]; rfl
  simp only [AutoGC.clientStep, hpc] at hs
  split at hs
  · next hrunning =>
      cases hs
      exact h.clientMove rfl rfl hcalled
        (h.owner.clientRelease ⟨rfl, fun _ => rfl, rfl⟩ hlocked rfl rfl)
        (h.collections.congr ⟨rfl, rfl, rfl, rfl, rfl, rfl⟩)
        ⟨(h.collections.running hrunning).1, le_rfl⟩ (fun _ _ => id)
        ⟨h.clock.last, h.clock.checks, h.clock.spaced⟩
  · next hrunning =>
      split at hs
      · cases hs
      · next hclock =>
          rw [not_lt] at hclock
          split at hs
          · cases hs
            exact h.clientMove rfl rfl hcalled
              (h.owner.clientRelease ⟨rfl, fun _ => rfl, rfl⟩ hlocked rfl rfl)
              (h.collections.congr ⟨rfl, rfl, rfl, rfl, rfl, rfl⟩) trivial
              (h.others_mono hlocked le_rfl)
              ⟨le_trans h.clock.last hclock, h.clock.checks, h.clock.spaced⟩
          · next hlast =>
              rw [Bool.not_eq_true] at hrunning
              cases hs
              exact h.clientMove rfl rfl hcalled
                (h.owner.clientKeep ⟨rfl, fun _ => rfl, rfl⟩ rfl (by rw [hlocked]; rfl))
                (h.collections.congr ⟨rfl, rfl, rfl, rfl, rfl, rfl⟩)
                ⟨hrunning, not_lt.mp hlast, le_rfl⟩ (h.others_mono hlocked le_rfl)
                ⟨le_trans h.clock.last hclock, h.clock.checks, h.clock.spaced⟩

/-- What a call of `autoGC` does keeps the invariant. -/
theorem Inv.clientStep (h : Inv settings s) {act : ClientAct}
    (hs : AutoGC.clientStep settings s c act = some s') : Inv settings s' := by
  cases hpc : s.pc c with
  -- the three places with lemmas of their own
  | look sync =>
      cases act with
      | look now => exact h.look hpc hs
      | call _ | lock | getAvail _ | join | start _ | get => simp [AutoGC.clientStep, hpc] at hs
  | getAvail sync now =>
      cases act with
      | getAvail avail => exact h.getAvail hpc hs
      | call _ | lock | look _ | join | start _ | get => simp [AutoGC.clientStep, hpc] at hs
  | start sync avail =>
      cases act with
      | start uses => exact h.start hpc hs
      | call _ | lock | look _ | join | getAvail _ | get => simp [AutoGC.clientStep, hpc] at hs
  -- the lock is asked for, taken, kept over the join and not needed for the wait
  | idle =>
      cases act with
      | call sync =>
          simp only [AutoGC.clientStep, hpc] at hs
          split at hs
          · next hcalled =>
              cases hs
              exact h.clientMove rfl rfl hcalled
                (h.owner.clientKeep ⟨rfl, fun _ => rfl, rfl⟩ rfl (by rw [hpc]; rfl))
                (h.collections.congr ⟨rfl, rfl, rfl, rfl, rfl, rfl⟩) trivial (fun _ _ => id)
                ⟨h.clock.last, h.clock.checks, h.clock.spaced⟩
          · cases hs
      | lock | look _ | getAvail _ | join | start _ | get => simp [AutoGC.clientStep, hpc] at hs
  | wantLock sync =>
      have hcalled := h.not_called (c := c) (by rw [hpc]; exact ClientPc.noConfusion)
      cases act with
      | lock =>
          simp only [AutoGC.clientStep, hpc] at hs
          split at hs
          · next hfree =>
              cases hs
              exact h.clientMove rfl rfl hcalled
                (h.owner.clientAcquire ⟨rfl, fun _ => rfl, rfl⟩ hfree rfl rfl)
                (h.collections.congr ⟨rfl, rfl, rfl, rfl, rfl, rfl⟩) trivial (fun _ _ => id)
                ⟨h.clock.last, h.clock.checks, h.clock.spaced⟩
          · cases hs
      | call _ | look _ | getAvail _ | join | start _ | get => simp [AutoGC.clientStep, hpc] at hs
  | join sync avail =>
      have hcalled := h.not_called (c := c) (by rw [hpc]; exact ClientPc.noConfusion)
      have hlocked : (s.pc c).locked = true := by rw [hpc]; rfl
      have hknows := h.knows c
      rw [hpc] at hknows
      cases act with
      | join =>
          simp only [AutoGC.clientStep, hpc] at hs
          split at hs
          · next hexited =>
              cases hs
              exact h.clientMove rfl rfl hcalled
                (h.owner.clientKeep ⟨rfl, fun _ => rfl, rfl⟩ rfl (by rw [hpc]; rfl))
                (h.collections.join (Or.inl hexited) rfl rfl rfl rfl rfl rfl)
                ⟨hknows.1, rfl, hknows.2.2⟩ (h.others_mono hlocked le_rfl)
                ⟨h.clock.last, h.clock.checks, h.clock.spaced⟩
          · cases hs
      | call _ | lock | look _ | getAvail _ | start _ | get => simp [AutoGC.clientStep, hpc] at hs
  | wait sync g =>
      have hcalled := h.not_called (c := c) (by rw [hpc]; exact ClientPc.noConfusion)
      cases act with
      | get =>
          simp only [AutoGC.clientStep, hpc] at hs
          split at hs
          · cases hs
          · cases hs
            exact h.clientMove rfl rfl hcalled
              (h.owner.clientKeep ⟨rfl, fun _ => rfl, rfl⟩ rfl (by rw [hpc]; rfl))
              (h.collections.congr ⟨rfl, rfl, rfl, rfl, rfl, rfl⟩) trivial (fun _ _ => id)
              ⟨h.clock.last, h.clock.checks, h.clock.spaced⟩
      | call _ | lock | look _ | getAvail _ | join | start _ => simp [AutoGC.clientStep, hpc] at hs

end ClientSteps

section ThreadSteps

variable {g : Nat} {phase : Phase}

omit [DecidableEq Cid] in
/-- What a collector thread may change besides its phase. -/
structure SameClients (s t : State Cid) : Prop where
  pc : t.pc = s.pc
  thread : t.thread = s.thread
  destructor : t.destructor = s.destructor

omit [DecidableEq Cid] in
theorem SameClients.locked {t : State Cid} (h : SameClients s t) {b : Agent Cid}
    (hb : b ≠ .collector g) : (t.setThread g phase).locked b = s.locked b := by
  cases b with
  | client d =>
      change (t.pc d).locked = (s.pc d).locked
      rw [h.pc]
  | collector k =>
      change (Function.update t.thread g phase k).locked = (s.thread k).locked
      rw [Function.update_of_ne (fun heq => hb (by rw [heq])), h.thread]
  | destructor =>
      change t.destructor.locked = s.destructor.locked
      rw [h.destructor]

omit [DecidableEq Cid] in
theorem locked_setThread (t : State Cid) :
    (t.setThread g phase).locked (.collector g) = phase.locked := by
  change (Function.update t.thread g phase g).locked = _
  rw [Function.update_self]

omit [DecidableEq Cid] in
theorem OwnerInv.threadKeep {t : State Cid} (h : OwnerInv s) (ht : SameClients s t)
    (howner : t.owner = s.owner) (hphase : phase.locked = (s.thread g).locked) :
    OwnerInv (t.setThread g phase) := by
  refine h.keep howner fun b => ?_
  by_cases hb : b = .collector g
  · subst hb
    rw [locked_setThread, hphase]
    rfl
  · exact ht.locked hb

omit [DecidableEq Cid] in
theorem OwnerInv.threadAcquire {t : State Cid} (h : OwnerInv s) (ht : SameClients s t)
    (hfree : s.owner = none) (howner : t.owner = some (.collector g))
    (hphase : phase.locked = true) : OwnerInv (t.setThread g phase) :=
  h.acquire hfree howner (by rw [locked_setThread, hphase]) fun _ hb => ht.locked hb

omit [DecidableEq Cid] in
theorem OwnerInv.threadRelease {t : State Cid} (h : OwnerInv s) (ht : SameClients s t)
    (hg : (s.thread g).locked = true) (howner : t.owner = none)
    (hphase : phase.locked = false) : OwnerInv (t.setThread g phase) :=
  h.release (a := .collector g) hg howner (by rw [locked_setThread, hphase])
    fun _ hb => ht.locked hb

omit [DecidableEq Cid] in
/-- A collector thread goes on, and leaves the rest of the state as it is. -/
theorem Inv.threadMove (h : Inv settings s) (hg : (s.thread g).active = true)
    (hphase : phase.active = true) {t : State Cid} (hsame : SameCollections s t)
    (hpc : t.pc = s.pc) (hdestructor : t.destructor = s.destructor)
    (hlast : t.lastGCCheck = s.lastGCCheck) (hclock : t.clock = s.clock)
    (hchecks : t.checks = s.checks) (howner : OwnerInv (t.setThread g phase)) :
    Inv settings (t.setThread g phase) where
  owner := howner
  collections := (h.collections.congr hsame).setThread (by rw [hsame.thread]; exact hg) hphase
  knows c := by
    have hk := h.knows c
    change Knows settings (t.setThread g phase) (t.pc c)
    rw [hpc]
    cases hc : s.pc c with
    | getAvail _ now =>
        rw [hc] at hk
        change t.gcRunning = false ∧ t.lastGCCheck + _ ≤ now ∧ now ≤ t.clock
        rw [hsame.gcRunning, hlast, hclock]
        exact hk
    | join _ avail | start _ avail =>
        rw [hc] at hk
        change t.gcRunning = false ∧ t.joinable = _ ∧ avail < _ ∧ avail < _
        rw [hsame.gcRunning, hsame.joinable]
        exact hk
    | wait _ k =>
        rw [hc] at hk
        change 1 ≤ k ∧ k ≤ t.gcFuture
        rw [hsame.gcFuture]
        exact hk
    | idle | wantLock _ | look _ => trivial
  destructor := by
    obtain ⟨hcalled, hwait, hafter, hdone, hterminated⟩ := h.destructor
    refine ⟨fun hne c => ?_, fun k hk => ?_, fun hk => ?_, fun hk => ?_, fun hk => ?_⟩
    · exact (congrFun hpc c).trans (hcalled (hdestructor ▸ hne) c)
    · have := hwait k (hdestructor ▸ hk)
      change k = t.gcFuture ∧ _
      rw [hsame.gcFuture]
      exact this
    · have := hafter (hdestructor ▸ hk)
      change t.gcRunning = false
      rw [hsame.gcRunning]
      exact this
    · have := hdone (hdestructor ▸ hk)
      change t.joinable = false
      rw [hsame.joinable]
      exact this
    · obtain ⟨k, hbroken⟩ := hterminated (hdestructor ▸ hk)
      exact ⟨k, by change t.promise k = .broken; rw [hsame.promise, hbroken]⟩
  clock := by
    obtain ⟨h1, h2, h3⟩ := h.clock
    refine ⟨?_, ?_, ?_⟩
    · change t.lastGCCheck ≤ t.clock
      rw [hlast, hclock]
      exact h1
    · change ∀ x ∈ t.checks, x ≤ t.lastGCCheck
      rw [hchecks, hlast]
      exact h2
    · change t.checks.Pairwise _
      rw [hchecks]
      exact h3

omit [DecidableEq Cid] in
/-- `wakeup`, with the lock. -/
theorem Inv.finish (h : Inv settings s) (hg : s.thread g = .finish) {now : Nat}
    (hnow : s.clock ≤ now) :
    Inv settings ({ s with
      clock := now
      gcRunning := false
      lastGCCheck := now
      promise := Function.update s.promise g .fulfilled }.unlock.setThread g .leaving) where
  owner := h.owner.threadRelease ⟨rfl, rfl, rfl⟩ (by rw [hg]; rfl) rfl rfl
  collections := h.collections.finish (by rw [hg]; rfl) rfl rfl rfl rfl rfl rfl
  knows c :=
    (h.knows c).mono (h.owner.client_unlocked (a := .collector g)
      (by change (s.thread g).locked = true; rw [hg]; rfl) fun heq => by cases heq) le_rfl
  destructor := by
    obtain ⟨hcalled, hwait, hafter, hdone, hterminated⟩ := h.destructor
    refine ⟨hcalled, hwait, fun _ => rfl, hdone, fun hk => ?_⟩
    obtain ⟨k, hbroken⟩ := hterminated hk
    have hpending := (h.collections.active g (by rw [hg]; rfl)).2.2
    have hne : k ≠ g := by
      rintro rfl
      rw [hbroken] at hpending
      cases hpending
    exact ⟨k, (Function.update_of_ne hne ..).trans hbroken⟩
  clock :=
    ⟨le_rfl, fun t ht => le_trans (h.clock.checks t ht) (le_trans h.clock.last hnow),
      h.clock.spaced⟩

omit [DecidableEq Cid] in
/-- The thread ends. -/
theorem Inv.exit (h : Inv settings s) (hg : s.thread g = .leaving) :
    Inv settings (s.setThread g .exited) where
  owner := h.owner.threadKeep ⟨rfl, rfl, rfl⟩ rfl (by rw [hg]; rfl)
  collections := h.collections.exit hg
  knows c := by
    have hk := h.knows c
    change Knows settings (s.setThread g .exited) (s.pc c)
    revert hk
    cases s.pc c <;> exact id
  destructor := ⟨h.destructor.called, h.destructor.wait, h.destructor.after, h.destructor.done,
    h.destructor.terminated⟩
  clock := ⟨h.clock.last, h.clock.checks, h.clock.spaced⟩

/-- What a step of a collector thread comes to. -/
inductive ThreadStep (s : State Cid) (g : Nat) : ThreadAct → State Cid → Prop where
  | lock {a b : Phase} : s.thread g = a → s.owner = none →
      (∃ uses, a = .collecting uses ∧ uses ≠ 0 ∧ b = .using_ (uses - 1)) ∨
        (∃ avail, a = .wantStore avail ∧ b = .store avail) ∨ a = .wantFinish ∧ b = .finish →
      ThreadStep s g .lock ((s.lock (.collector g)).setThread g b)
  | unlock {uses : Nat} : s.thread g = .using_ uses →
      ThreadStep s g .unlock (s.unlock.setThread g (.collecting uses))
  | collected : s.thread g = .collecting 0 → ThreadStep s g .collected (s.setThread g .getAvail)
  | thrown {uses : Nat} : s.thread g = .collecting uses →
      ThreadStep s g .thrown (s.setThread g .wantFinish)
  | thrownUsing {uses : Nat} : s.thread g = .using_ uses →
      ThreadStep s g .thrown (s.unlock.setThread g .wantFinish)
  | getAvail {avail : UInt64} : s.thread g = .getAvail →
      ThreadStep s g (.getAvail (some avail)) (s.setThread g (.wantStore avail))
  | getAvailThrows : s.thread g = .getAvail →
      ThreadStep s g (.getAvail none) (s.setThread g .wantFinish)
  | store {avail : UInt64} : s.thread g = .store avail →
      ThreadStep s g .store ({ s with availAfterGC := avail }.unlock.setThread g .wantFinish)
  | finish {now : Nat} : s.thread g = .finish → s.clock ≤ now →
      ThreadStep s g (.finish now) ({ s with
        clock := now
        gcRunning := false
        lastGCCheck := now
        promise := Function.update s.promise g .fulfilled }.unlock.setThread g .leaving)
  | exit : s.thread g = .leaving → ThreadStep s g .exit (s.setThread g .exited)

omit [DecidableEq Cid] in
theorem threadStep_cases {act : ThreadAct} (hs : AutoGC.threadStep s g act = some s') :
    ThreadStep s g act s' := by
  unfold AutoGC.threadStep at hs
  split at hs
  · next uses hg =>
      split at hs
      · next hfree =>
          cases hs
          exact .lock hg hfree.1 (Or.inl ⟨_, rfl, hfree.2, rfl⟩)
      · cases hs
  · next hg => cases hs; exact .unlock hg
  · next hg =>
      split at hs
      · next huses =>
          cases hs
          exact .collected (huses ▸ hg)
      · cases hs
  · next hg => cases hs; exact .thrown hg
  · next hg => cases hs; exact .thrownUsing hg
  · next hg => cases hs; exact .getAvail hg
  · next hg => cases hs; exact .getAvailThrows hg
  · next hg =>
      split at hs
      · next hfree =>
          cases hs
          exact .lock hg hfree (Or.inr (Or.inl ⟨_, rfl, rfl⟩))
      · cases hs
  · next hg => cases hs; exact .store hg
  · next hg =>
      split at hs
      · next hfree =>
          cases hs
          exact .lock hg hfree (Or.inr (Or.inr ⟨rfl, rfl⟩))
      · cases hs
  · next hg =>
      split at hs
      · cases hs
      · next hnow => cases hs; exact .finish hg (not_lt.mp hnow)
  · next hg => cases hs; exact .exit hg
  · cases hs

omit [DecidableEq Cid] in
/-- What a collector thread does keeps the invariant. -/
theorem Inv.threadStep (h : Inv settings s) {act : ThreadAct}
    (hs : AutoGC.threadStep s g act = some s') : Inv settings s' := by
  cases threadStep_cases hs with
  | lock hg hfree hplace =>
      have hactive : (s.thread g).active = true := by
        rcases hplace with ⟨_, rfl, -, -⟩ | ⟨_, rfl, -⟩ | ⟨rfl, -⟩ <;> rw [hg] <;> rfl
      have hphase : ∀ {b : Phase}, b.active = true → b.locked = true →
          Inv settings ((s.lock (.collector g)).setThread g b) := fun hb hlocked =>
        h.threadMove hactive hb ⟨rfl, rfl, rfl, rfl, rfl, rfl⟩ rfl rfl rfl rfl rfl
          (h.owner.threadAcquire ⟨rfl, rfl, rfl⟩ hfree rfl hlocked)
      rcases hplace with ⟨_, -, -, rfl⟩ | ⟨_, -, rfl⟩ | ⟨-, rfl⟩ <;> exact hphase rfl rfl
  | unlock hg =>
      exact h.threadMove (by rw [hg]; rfl) rfl ⟨rfl, rfl, rfl, rfl, rfl, rfl⟩ rfl rfl rfl rfl rfl
        (h.owner.threadRelease ⟨rfl, rfl, rfl⟩ (by rw [hg]; rfl) rfl rfl)
  | collected hg | thrown hg | getAvail hg | getAvailThrows hg =>
      exact h.threadMove (by rw [hg]; rfl) rfl ⟨rfl, rfl, rfl, rfl, rfl, rfl⟩ rfl rfl rfl rfl rfl
        (h.owner.threadKeep ⟨rfl, rfl, rfl⟩ rfl (by rw [hg]; rfl))
  | thrownUsing hg | store hg =>
      exact h.threadMove (by rw [hg]; rfl) rfl ⟨rfl, rfl, rfl, rfl, rfl, rfl⟩ rfl rfl rfl rfl rfl
        (h.owner.threadRelease ⟨rfl, rfl, rfl⟩ (by rw [hg]; rfl) rfl rfl)
  | finish hg hnow => exact h.finish hg hnow
  | exit hg => exact h.exit hg

end ThreadSteps

section DestructorSteps

/-- What a step of the destructor comes to. -/
inductive DestructorStep (s : State Cid) : DestructorAct → State Cid → Prop where
  | call : s.destructor = .notCalled → (∀ c, s.pc c = .idle) →
      DestructorStep s .call { s with destructor := .wantLock }
  | lock {b : DestructorPc} : s.owner = none →
      s.destructor = .wantLock ∧ b = .look ∨ s.destructor = .wantLockAgain ∧ b = .join →
      DestructorStep s .lock { s.lock .destructor with destructor := b }
  | look : s.destructor = .look → DestructorStep s .look { s.unlock with
      destructor := if s.gcRunning then .wait s.gcFuture else .wantLockAgain }
  | get {g : Nat} : s.destructor = .wait g → s.promise g = .fulfilled →
      DestructorStep s .get { s with destructor := .wantLockAgain }
  | getBroken {g : Nat} : s.destructor = .wait g → s.promise g = .broken →
      DestructorStep s .get { s with destructor := .terminated }
  | join : s.destructor = .join → ¬(s.joinable = true ∧ s.thread s.gcFuture ≠ .exited) →
      DestructorStep s .join { s.unlock with joinable := false, destructor := .done }

variable [Fintype Cid]

omit [DecidableEq Cid] in
theorem destructorStep_cases {act : DestructorAct}
    (hs : AutoGC.destructorStep s act = some s') : DestructorStep s act s' := by
  unfold AutoGC.destructorStep at hs
  split at hs
  · next hd =>
      split at hs
      · next hidle => cases hs; exact .call hd hidle
      · cases hs
  · next hd =>
      split at hs
      · next hfree => cases hs; exact .lock hfree (Or.inl ⟨hd, rfl⟩)
      · cases hs
  · next hd => cases hs; exact .look hd
  · next hd =>
      split at hs
      · cases hs
      · next hfulfilled => cases hs; exact .get hd hfulfilled
      · next hbroken => cases hs; exact .getBroken hd hbroken
  · next hd =>
      split at hs
      · next hfree => cases hs; exact .lock hfree (Or.inr ⟨hd, rfl⟩)
      · cases hs
  · next hd =>
      split at hs
      · cases hs
      · next hjoin => cases hs; exact .join hd hjoin
  · cases hs

omit [DecidableEq Cid] [Fintype Cid] in
/-- The destructor moves on, and nobody else uses the store. -/
theorem Inv.destructorMove (h : Inv settings s) (hidle : ∀ c, s.pc c = .idle)
    (hpc : s'.pc = s.pc) (hlast : s'.lastGCCheck = s.lastGCCheck) (hclock : s'.clock = s.clock)
    (hchecks : s'.checks = s.checks) (howner : OwnerInv s')
    (hcollections : CollectionInv settings s') (hdestructor : DestructorInv s') :
    Inv settings s' where
  owner := howner
  collections := hcollections
  knows c := by
    rw [hpc, hidle c]
    trivial
  destructor := hdestructor
  clock := by
    obtain ⟨h1, h2, h3⟩ := h.clock
    refine ⟨?_, ?_, ?_⟩
    · rw [hlast, hclock]
      exact h1
    · rw [hchecks, hlast]
      exact h2
    · rw [hchecks]
      exact h3

omit [DecidableEq Cid] [Fintype Cid] in
theorem locked_eq_of_threads {b : Agent Cid} (hpc : s'.pc = s.pc) (hthread : s'.thread = s.thread)
    (hb : b ≠ .destructor) : s'.locked b = s.locked b := by
  cases b with
  | client c =>
      change (s'.pc c).locked = (s.pc c).locked
      rw [hpc]
  | collector g =>
      change (s'.thread g).locked = (s.thread g).locked
      rw [hthread]
  | destructor => exact absurd rfl hb

omit [DecidableEq Cid] [Fintype Cid] in
theorem OwnerInv.destructorKeep (h : OwnerInv s) (hpc : s'.pc = s.pc)
    (hthread : s'.thread = s.thread) (howner : s'.owner = s.owner)
    (hd : s'.destructor.locked = s.destructor.locked) : OwnerInv s' := by
  refine h.keep howner fun b => ?_
  by_cases hb : b = .destructor
  · subst hb
    exact hd
  · exact locked_eq_of_threads hpc hthread hb

omit [DecidableEq Cid] in
/-- What the destructor does keeps the invariant. -/
theorem Inv.destructorStep (h : Inv settings s) {act : DestructorAct}
    (hs : AutoGC.destructorStep s act = some s') : Inv settings s' := by
  have hsame : ∀ d, CollectionInv settings { s with destructor := d } :=
    fun d => h.collections.congr ⟨rfl, rfl, rfl, rfl, rfl, rfl⟩
  cases destructorStep_cases hs with
  | call hd hidle =>
      exact h.destructorMove hidle rfl rfl rfl rfl
        (h.owner.destructorKeep rfl rfl rfl (by rw [hd]; rfl)) (hsame _)
        ⟨fun _ => hidle, fun g hg => (by cases hg), fun hg => (by rcases hg with hg | hg <;> cases hg),
          fun hg => (by cases hg), fun hg => by cases hg⟩
  -- for the look at `gcRunning`, or for the join after the wait
  | lock hfree hplace =>
      have hcalled : s.destructor ≠ .notCalled := by
        rcases hplace with ⟨hd, -⟩ | ⟨hd, -⟩ <;> rw [hd] <;> exact DestructorPc.noConfusion
      have hidle := h.destructor.called hcalled
      have howner : ∀ b : DestructorPc, b.locked = true →
          OwnerInv { s.lock .destructor with destructor := b } := fun b hb =>
        h.owner.acquire hfree rfl hb fun _ hne => locked_eq_of_threads rfl rfl hne
      rcases hplace with ⟨-, rfl⟩ | ⟨hd, rfl⟩
      · exact h.destructorMove hidle rfl rfl rfl rfl (howner _ rfl)
          (h.collections.congr ⟨rfl, rfl, rfl, rfl, rfl, rfl⟩)
          ⟨fun _ => hidle, fun g hg => (by cases hg),
            fun hg => (by rcases hg with hg | hg <;> cases hg), fun hg => (by cases hg),
            fun hg => by cases hg⟩
      · exact h.destructorMove hidle rfl rfl rfl rfl (howner _ rfl)
          (h.collections.congr ⟨rfl, rfl, rfl, rfl, rfl, rfl⟩)
          ⟨fun _ => hidle, fun g hg => (by cases hg),
            fun _ => h.destructor.after (Or.inl hd), fun hg => (by cases hg),
            fun hg => by cases hg⟩
  -- it waits for the collection that runs, if one does
  | look hd =>
      have hidle := h.destructor.called (by rw [hd]; exact DestructorPc.noConfusion)
      have howner : ∀ b : DestructorPc, b.locked = false →
          OwnerInv { s.unlock with destructor := b } := fun b hb =>
        h.owner.release (a := .destructor) (by change s.destructor.locked = true; rw [hd]; rfl) rfl
          hb fun _ hne => locked_eq_of_threads rfl rfl hne
      cases hrunning : s.gcRunning with
      | true =>
          refine h.destructorMove hidle rfl rfl rfl rfl (howner _ rfl)
            (h.collections.congr ⟨rfl, rfl, rfl, rfl, rfl, rfl⟩)
            ⟨fun _ => hidle, fun g hg => ?_, fun hg => (by rcases hg with hg | hg <;> cases hg),
              fun hg => (by cases hg), fun hg => by cases hg⟩
          cases hg
          exact ⟨rfl, (h.collections.running hrunning).1⟩
      | false =>
          exact h.destructorMove hidle rfl rfl rfl rfl (howner _ rfl)
            (h.collections.congr ⟨rfl, rfl, rfl, rfl, rfl, rfl⟩)
            ⟨fun _ => hidle, fun g hg => (by cases hg), fun _ => hrunning,
              fun hg => (by cases hg), fun hg => by cases hg⟩
  -- the promise is kept after `gcRunning` was cleared, under the same lock
  | get hd hfulfilled =>
      have hidle := h.destructor.called (by rw [hd]; exact DestructorPc.noConfusion)
      refine h.destructorMove hidle rfl rfl rfl rfl
        (h.owner.destructorKeep rfl rfl rfl (by rw [hd]; rfl)) (hsame _)
        ⟨fun _ => hidle, fun k hk => (by cases hk), fun _ => ?_, fun hk => (by cases hk),
          fun hk => by cases hk⟩
      obtain ⟨rfl, -⟩ := h.destructor.wait _ hd
      change s.gcRunning = false
      rw [← Bool.not_eq_true]
      intro hrunning
      rcases (h.collections.running hrunning).2 with hactive | hbroken
      · have := (h.collections.active _ hactive).2.2
        rw [hfulfilled] at this
        cases this
      · rw [hfulfilled] at hbroken
        cases hbroken
  | getBroken hd hbroken =>
      have hidle := h.destructor.called (by rw [hd]; exact DestructorPc.noConfusion)
      exact h.destructorMove hidle rfl rfl rfl rfl
        (h.owner.destructorKeep rfl rfl rfl (by rw [hd]; rfl)) (hsame _)
        ⟨fun _ => hidle, fun k hk => (by cases hk),
          fun hk => (by rcases hk with hk | hk <;> cases hk), fun hk => (by cases hk),
          fun _ => ⟨_, hbroken⟩⟩
  -- the thread has ended, so it can be joined
  | join hd hjoin =>
      have hidle := h.destructor.called (by rw [hd]; exact DestructorPc.noConfusion)
      have hended : s.thread s.gcFuture = .exited ∨ s.joinable = false := by
        rw [not_and_not_right] at hjoin
        cases hj : s.joinable with
        | true => exact Or.inl (hjoin hj)
        | false => exact Or.inr rfl
      exact h.destructorMove hidle rfl rfl rfl rfl
        (h.owner.release (a := .destructor) (by change s.destructor.locked = true; rw [hd]; rfl) rfl
          rfl fun _ hne => locked_eq_of_threads rfl rfl hne)
        (h.collections.join hended rfl rfl rfl rfl rfl rfl)
        ⟨fun _ => hidle, fun k hk => (by cases hk),
          fun hk => (by rcases hk with hk | hk <;> cases hk), fun _ => rfl, fun hk => by cases hk⟩

end DestructorSteps

section Runs

variable [Fintype Cid]

omit [DecidableEq Cid] [Fintype Cid] in
theorem inv_initial : Inv settings (initial : State Cid) where
  owner a := by cases a <;> exact iff_of_false (Option.some_ne_none _).symm Bool.false_ne_true
  collections :=
    ⟨fun _ h => (by cases h), fun h => (by cases h), fun _ h1 h0 => absurd h0 (Nat.not_le_of_gt h1),
      fun _ _ => ⟨rfl, rfl⟩, fun _ _ => Or.inl rfl, fun _ => Or.inl rfl, fun h => (by cases h),
      fun _ h => absurd rfl h, fun _ h => by cases h⟩
  knows _ := trivial
  destructor :=
    ⟨fun h => absurd rfl h, fun _ h => (by cases h), fun _ => rfl, fun _ => rfl,
      fun h => by cases h⟩
  clock := ⟨le_rfl, fun _ h => (by cases h), List.Pairwise.nil⟩

/-- Every step keeps the invariant. -/
theorem Inv.step (h : Inv settings s) {act : Act Cid}
    (hs : (system settings).step s act = some s') : Inv settings s' := by
  cases act with
  | client c act => exact h.clientStep hs
  | thread g act => exact h.threadStep hs
  | destructor act => exact h.destructorStep hs

variable (settings) in
/-- The states that some order of the threads leads to. -/
def Reachable (s : State Cid) : Prop := (system settings).Reachable (fun _ _ => True) s

theorem inv_reachable (h : Reachable settings s) : Inv settings s :=
  System.Reachable.invariant h (fun _ hinit => hinit ▸ inv_initial)
    fun _ _ _ hinv _ hs => hinv.step hs

end Runs

end AutoGC
end NixStore
