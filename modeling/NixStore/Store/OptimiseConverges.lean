/-
  NixStore.Store.OptimiseConverges

  One pass of `optimiseStore` leaves nothing for the next one to link.

  Every file below a path is in the farm, or is left alone for what it is, or is
  still owed by the thread of the path.  The set of inodes grows with the farm,
  so a thread that skips an inode it knows owes nothing for it.  Other threads
  have other paths, and what they do to the farm only adds entries.
-/

import NixStore.Store.OptimiseAlone

namespace NixStore

namespace Optimising

variable {store : StoreDirConfig} {canLinkSymlink : Bool} {s₀ s s' : Optimising}
  {paths : List StorePath}

-- ============================================================================
-- Steps
-- ============================================================================

/-- What a call of a thread leaves to the others. -/
structure Spares (s s' : Optimising) (n : Nat) : Prop where
  threads : ∀ m, m ≠ n → s'.optimisers m = s.optimisers m
  inodes : s'.fs.inodes = s.fs.inodes
  farm : ∀ h i, s.fs.names (.farm h) = some (.object i) → s'.fs.names (.farm h) = some (.object i)
  store : ∀ k, (s.optimisers n).pc.begun ≠ some k →
    s'.fs.names (.store k) = s.fs.names (.store k)
  temps : ∀ m, m ≠ n → ∀ k p, (s.optimisers m).holding = some (k, p) →
    s'.fs.names k = s.fs.names k

variable {n : Nat}

theorem Spares.farmed (h : Spares s s' n) {i : Nat} (hi : s.Farmed i) : s'.Farmed i :=
  hi.imp fun hash hname => h.farm hash i hname

theorem Spares.done (h : Spares s s' n) {i : Nat} (hi : Done canLinkSymlink s i) :
    Done canLinkSymlink s' i := by
  refine hi.imp h.farmed fun hexempt => ?_
  rw [h.inodes]
  exact hexempt

theorem Spares.stands (h : Spares s s' n) {path : NodePath} {st : Stat}
    (hpath : (s.optimisers n).pc.begun ≠ some path) (hst : Stands s.fs path st) :
    Stands s'.fs path st := by
  refine ⟨?_, ?_⟩
  · rw [h.store path hpath]
    exact hst.name
  · rw [h.inodes]
    exact hst.size

namespace Converging

/-- A link in the farm stays. -/
theorem farm_stays (h : Converging store canLinkSymlink s₀ paths s) (hspares : Spares s s' n)
    {hash : Hash} (hne : s.fs.names (.farm hash) ≠ none) : s'.fs.names (.farm hash) ≠ none := by
  obtain ⟨i, hi⟩ := h.farm_file hne
  rw [hspares.farm hash i hi]
  exact nofun

/-- Two threads are not at one path. -/
theorem apart (h : Converging store canLinkSymlink s₀ paths s) (hnodup : paths.Nodup) {m : Nat}
    (hm : m ≠ n) {p : StorePath} (hp : paths[m]? = some p) {k : NodePath}
    (hk : k.head? = some p.baseName) : (s.optimisers n).pc.begun ≠ some k := by
  intro hbegun
  obtain ⟨q, hq, hhead⟩ := h.own n k (.inr hbegun)
  have hsame : p = q := StorePath.ext' (Option.some.inj (hk.symm.trans hhead))
  subst hsame
  obtain ⟨hlt, hget⟩ := List.getElem?_eq_some_iff.mp hp
  obtain ⟨hlt', hget'⟩ := List.getElem?_eq_some_iff.mp hq
  exact hm ((List.Nodup.getElem_inj_iff hnodup).mp (hget.trans hget'.symm))

/-- What the other threads know. -/
theorem others_know (h : Converging store canLinkSymlink s₀ paths s) (hnodup : paths.Nodup)
    (hspares : Spares s s' n) {m : Nat} (hm : m ≠ n) : Knows s'.fs (s.optimisers m).pc := by
  have hstands : ∀ {path st}, (s.optimisers m).pc.begun = some path → Stands s.fs path st →
      Stands s'.fs path st := by
    intro path st hbegun hst
    obtain ⟨p, hp, hhead⟩ := h.own m path (.inr hbegun)
    exact hspares.stands (h.apart hnodup hm hp hhead) hst
  have hknows := h.knows m
  cases hpc : (s.optimisers m).pc with
  | next | threw => trivial
  | hash | lookup | addLink =>
      rw [hpc] at hknows hstands
      exact hstands rfl hknows
  | again | link =>
      rw [hpc] at hknows hstands
      exact ⟨hstands rfl hknows.1, h.farm_stays hspares hknows.2⟩
  | rename v counter =>
      rw [hpc] at hknows hstands
      obtain ⟨hst, i, hi, htemp⟩ := hknows
      refine ⟨hstands rfl hst, i, hspares.farm _ i hi, ?_⟩
      rw [hspares.temps m hm (.tempLink 0 counter) v.path ?_]
      · exact htemp
      · rw [Optimiser.holding, hpc, (h.plain m).1]
        rfl
  | compare | unlink | remove =>
      rw [hpc] at hknows
      exact hknows

/-- A thread has made a call that spares the others. -/
theorem moved (h : Converging store canLinkSymlink s₀ paths s) (hnodup : paths.Nodup)
    (hspares : Spares s s' n) (hinv : Inv store canLinkSymlink s₀ s') (hsettled : s'.Settled)
    (hplain : (s'.optimisers n).pid = 0 ∧ (s'.optimisers n).repair = false)
    (hknown : ∀ i ∈ s'.inodeHash 0, i ∈ s.inodeHash 0 ∨ s'.Farmed i)
    (hnew : ∀ k i, s'.fs.names (.store k) = some (.object i) →
      s.fs.names (.store k) = some (.object i) ∨ s'.Farmed i)
    (hown : ∀ k, (k ∈ (s'.optimisers n).todo ∨ (s'.optimisers n).pc.begun = some k) →
      ∃ p, paths[n]? = some p ∧ k.head? = some p.baseName)
    (hknows : Knows s'.fs (s'.optimisers n).pc)
    (howes : ∀ k i, s.fs.names (.store k) = some (.object i) → (s.optimisers n).Owes k →
      s'.fs.names (.store k) = some (.object i) →
      Done canLinkSymlink s' i ∨ (s'.optimisers n).Owes k) :
    Converging store canLinkSymlink s₀ paths s' := by
  refine ⟨hinv, hsettled, fun m => ?_, ?_, fun m k hk => ?_, fun m => ?_, fun m p k i hp hk => ?_⟩
  · by_cases hm : m = n
    · exact hm ▸ hplain
    · rw [hspares.threads m hm]
      exact h.plain m
  · intro i hi k hk
    rcases hknown i hi with hold | hfarmed
    · rcases hnew k i hk with hk | hfarmed
      · exact hspares.farmed (h.known i hold k hk)
      · exact hfarmed
    · exact hfarmed
  · by_cases hm : m = n
    · subst hm
      exact hown k hk
    · rw [hspares.threads m hm] at hk
      exact h.own m k hk
  · by_cases hm : m = n
    · exact hm ▸ hknows
    · rw [hspares.threads m hm]
      exact h.others_know hnodup hspares hm
  · rcases hnew _ i hk with hold | hfarmed
    · rcases h.covered m p k i hp hold with hdone | howed
      · exact .inl (hspares.done hdone)
      · by_cases hm : m = n
        · subst hm
          exact howes _ i hold howed hk
        · rw [hspares.threads m hm]
          exact .inr howed
    · exact .inl (.inl hfarmed)

end Converging

namespace Advance

variable {o : Optimiser} {entries : List (Bytes × Nat)} {x : OptimiseStep}

theorem plain (h : Advance canLinkSymlink s o entries x) :
    x.thread.pid = o.pid ∧ x.thread.repair = o.repair := by
  cases h with
  | opened | left | found | goes | leaves | throws | added | linked | renamed => exact ⟨rfl, rfl⟩

/-- Links stay, and of the names below paths only that of the thread's file can
    change. -/
theorem frame (h : Advance canLinkSymlink s o entries x) :
    (∀ hash i, s.fs.names (.farm hash) = some (.object i) →
      x.fs.names (.farm hash) = some (.object i)) ∧
    ∀ k, o.pc.begun ≠ some k → x.fs.names (.store k) = s.fs.names (.store k) := by
  cases h with
  | opened | left | found | goes | leaves => exact ⟨fun _ _ hi => hi, fun _ _ => rfl⟩
  | throws hfs =>
      rcases hfs with rfl | ⟨counter, rfl⟩
      · exact ⟨fun _ _ hi => hi, fun _ _ => rfl⟩
      · refine ⟨fun hash i hi => ?_, fun k _ => ?_⟩
        · rw [Fs.names_unlink, if_neg nofun]
          exact hi
        · rw [Fs.names_unlink, if_neg nofun]
  | added hpc hstands hnone =>
      refine ⟨fun hash i hi => ?_, fun k _ => ?_⟩
      · rw [Fs.names_copyName, if_neg]
        · exact hi
        · rintro heq
          rw [heq, hnone] at hi
          cases hi
      · rw [Fs.names_copyName, if_neg nofun]
  | linked hpc hstands hname =>
      refine ⟨fun hash i hi => ?_, fun k _ => ?_⟩
      · rw [Fs.names_copyName, if_neg nofun]
        exact hi
      · rw [Fs.names_copyName, if_neg nofun]
  | @renamed v counter i filesLinked bytesFreed fs hpc hname hpath hothers =>
      refine ⟨fun hash j hj => ?_, fun k hk => ?_⟩
      · exact (hothers (.farm hash) nofun nofun).trans hj
      · refine hothers _ (fun heq => hk ?_) nofun
        cases heq
        rw [hpc]
        rfl

/-- A new inode in the set is in the farm. -/
theorem known (h : Advance canLinkSymlink s o entries x) {i : Nat} (hi : i ∈ x.inodeHash) :
    i ∈ s.inodeHash 0 ∨ ∃ hash, x.fs.names (.farm hash) = some (.object i) := by
  cases h with
  | opened | left | found | goes | leaves | throws | linked | renamed => exact .inl hi
  | @added v hpc hstands hnone =>
      rcases List.mem_cons.mp hi with rfl | hold
      · right
        refine ⟨v.hash, ?_⟩
        rw [Fs.names_copyName, if_pos rfl]
        exact hstands.name
      · exact .inl hold

/-- A file below a path has the inode that it had, or one in the farm. -/
theorem names (h : Advance canLinkSymlink s o entries x) {k : NodePath} {i : Nat}
    (hk : x.fs.names (.store k) = some (.object i)) :
    s.fs.names (.store k) = some (.object i) ∨
      ∃ hash, x.fs.names (.farm hash) = some (.object i) := by
  by_cases hbegun : o.pc.begun = some k
  · cases h with
    | opened | left | found | goes | leaves => exact .inl hk
    | throws hfs =>
        rcases hfs with rfl | ⟨counter, rfl⟩
        · exact .inl hk
        · rw [Fs.names_unlink, if_neg nofun] at hk
          exact .inl hk
    | added hpc hstands hnone =>
        rw [Fs.names_copyName, if_neg nofun] at hk
        exact .inl hk
    | linked hpc hstands hname =>
        rw [Fs.names_copyName, if_neg nofun] at hk
        exact .inl hk
    | @renamed v counter j filesLinked bytesFreed fs hpc hname hpath hothers =>
        right
        rw [hpc] at hbegun
        cases hbegun
        cases hpath.symm.trans hk
        exact ⟨v.hash, (hothers (.farm v.hash) nofun nofun).trans hname⟩
  · rw [h.frame.2 k hbegun] at hk
    exact .inl hk

end Advance

namespace Converging

variable {entries : List (Bytes × Nat)} {x : OptimiseStep}

/-- The thread keeps to its path. -/
theorem advance_own (h : Converging store canLinkSymlink s₀ paths s)
    (hx : Advance canLinkSymlink s (s.optimisers n) entries x) {k : NodePath}
    (hk : k ∈ x.thread.todo ∨ x.thread.pc.begun = some k) :
    ∃ p, paths[n]? = some p ∧ k.head? = some p.baseName := by
  have hrest : ∀ path rest, (s.optimisers n).todo = path :: rest → k ∈ rest →
      ∃ p, paths[n]? = some p ∧ k.head? = some p.baseName := by
    intro path rest htodo hmem
    refine h.own n k (.inl ?_)
    rw [htodo]
    exact List.mem_cons_of_mem _ hmem
  cases hx with
  | @opened path rest hpc htodo _ =>
      rcases hk with hk | hk
      · rcases List.mem_append.mp hk with hchild | hk
        · obtain ⟨name, -, rfl⟩ := List.mem_map.mp hchild
          have hmem : path ∈ (s.optimisers n).todo := by
            rw [htodo]
            exact List.mem_cons_self
          obtain ⟨p, hp, hhead⟩ := h.own n path (.inl hmem)
          refine ⟨p, hp, ?_⟩
          rw [List.head?_append_of_ne_nil _ (h.ne_nil hmem)]
          exact hhead
        · exact hrest path rest htodo hk
      · exact h.own n k (.inr hk)
  | @left path rest i hpc htodo _ _ =>
      rcases hk with hk | hk
      · exact hrest path rest htodo hk
      · exact h.own n k (.inr hk)
  | @found path rest st hpc htodo hstands =>
      rcases hk with hk | hk
      · exact hrest path rest htodo hk
      · refine h.own n k (.inl ?_)
        rw [htodo, ← Option.some.inj hk]
        exact List.mem_cons_self
  | goes hne hbegun _ =>
      rcases hk with hk | hk
      · exact h.own n k (.inl hk)
      · exact h.own n k (.inr (hbegun.symm.trans hk))
  | leaves | throws | added | renamed =>
      rcases hk with hk | hk
      · exact h.own n k (.inl hk)
      · cases hk
  | linked hpc _ _ =>
      rcases hk with hk | hk
      · exact h.own n k (.inl hk)
      · refine h.own n k (.inr ?_)
        rw [hpc]
        exact hk

/-- What the thread knows after its call. -/
theorem advance_knows (h : Converging store canLinkSymlink s₀ paths s)
    (hx : Advance canLinkSymlink s (s.optimisers n) entries x)
    (hinodes : x.fs.inodes = s.fs.inodes) : Knows x.fs x.thread.pc := by
  cases hx with
  | opened | left => exact h.knows n
  | found hpc htodo hstands => exact hstands
  | goes hne hbegun hknows => exact hknows
  | leaves | throws | added | renamed => trivial
  | @linked v counter i hpc hstands hname =>
      refine ⟨⟨?_, ?_⟩, i, ?_, ?_⟩
      · rw [Fs.names_copyName, if_neg nofun]
        exact hstands.name
      · exact hstands.size
      · rw [Fs.names_copyName, if_neg nofun]
        exact hname
      · rw [Fs.names_copyName, (h.plain n).1, if_pos rfl]
        exact hname

/-- What the thread owes is done by its call, or still owed. -/
theorem advance_owes (h : Converging store canLinkSymlink s₀ paths s) (htree : TreeShaped s₀.fs)
    (hlists : ∀ path rest, (s.optimisers n).pc = .next → (s.optimisers n).todo = path :: rest →
      s.fs.names (.store path) = some .directory →
      Lists s.fs (s.inodeHash (s.optimisers n).pid) path entries)
    (hx : Advance canLinkSymlink s (s.optimisers n) entries x) {k : NodePath} {j : Nat}
    (hk : s.fs.names (.store k) = some (.object j)) (howes : (s.optimisers n).Owes k)
    (hk' : x.fs.names (.store k) = some (.object j)) :
    Done canLinkSymlink s j ∨ (∃ hash, x.fs.names (.farm hash) = some (.object j)) ∨
      x.thread.Owes k := by
  have htodo : ∀ path rest q, (s.optimisers n).todo = path :: rest →
      q ∈ (s.optimisers n).todo → q = path ∨ q ∈ rest := by
    intro path rest q htodo hq
    rw [htodo] at hq
    exact List.mem_cons.mp hq
  cases hx with
  -- a directory is replaced by what is in it
  | @opened path rest hpc heq hpath =>
      rcases howes with ⟨q, hq, hle⟩ | hbegun | hthrew
      · rcases htodo path rest q heq hq with rfl | hrest
        · have hdir := hlists q rest hpc heq hpath
          rw [(h.plain n).1] at hdir
          rcases h.listed htree hq hle hk hpath hdir with hfarmed | ⟨q', hq', hle'⟩
          · exact .inl (.inl hfarmed)
          · exact .inr (.inr (.inl ⟨q', List.mem_append_left _ hq', hle'⟩))
        · exact .inr (.inr (.inl ⟨q, List.mem_append_right _ hrest, hle⟩))
      · exact .inr (.inr (.inr (.inl hbegun)))
      · exact .inr (.inr (.inr (.inr hthrew)))
  -- a file that is skipped is done with
  | @left path rest i hpc heq hpath hdone =>
      rcases howes with ⟨q, hq, hle⟩ | hbegun | hthrew
      · rcases htodo path rest q heq hq with rfl | hrest
        · have hsame := h.eq_of_isPrefix htree hq hle hk hpath
          subst hsame
          cases hk.symm.trans hpath
          exact .inl hdone
        · exact .inr (.inr (.inl ⟨q, hrest, hle⟩))
      · exact .inr (.inr (.inr (.inl hbegun)))
      · exact .inr (.inr (.inr (.inr hthrew)))
  -- it is the file that is begun now
  | @found path rest st hpc heq hstands =>
      rcases howes with ⟨q, hq, hle⟩ | hbegun | hthrew
      · rcases htodo path rest q heq hq with rfl | hrest
        · have hsame := h.eq_of_isPrefix htree hq hle hk hstands.name
          exact .inr (.inr (.inr (.inl (congrArg some hsame.symm))))
        · exact .inr (.inr (.inl ⟨q, hrest, hle⟩))
      · rw [hpc] at hbegun
        cases hbegun
      · cases hpc.symm.trans hthrew
  -- and stays it
  | @goes pc hne hbegun' hknows =>
      rcases howes with hq | hbegun | hthrew
      · exact .inr (.inr (.inl hq))
      · exact .inr (.inr (.inr (.inl (hbegun'.trans hbegun))))
      · rw [hthrew] at hne
        exact absurd rfl hne
  | @leaves path i hbegun' hpath hfarmed =>
      rcases howes with hq | hbegun | hthrew
      · exact .inr (.inr (.inl hq))
      · cases hbegun'.symm.trans hbegun
        cases hk.symm.trans hpath
        exact .inl (.inl hfarmed)
      · rw [hthrew] at hbegun'
        cases hbegun'
  | throws hfs => exact .inr (.inr (.inr (.inr rfl)))
  -- the file is in the farm now
  | @added v hpc hstands hnone =>
      rcases howes with hq | hbegun | hthrew
      · exact .inr (.inr (.inl hq))
      · rw [hpc] at hbegun
        cases hbegun
        cases hk.symm.trans hstands.name
        refine .inr (.inl ⟨v.hash, ?_⟩)
        rw [Fs.names_copyName, if_pos rfl]
        exact hstands.name
      · cases hpc.symm.trans hthrew
  | linked hpc hstands hname =>
      rcases howes with hq | hbegun | hthrew
      · exact .inr (.inr (.inl hq))
      · rw [hpc] at hbegun
        exact .inr (.inr (.inr (.inl hbegun)))
      · cases hpc.symm.trans hthrew
  -- the path has got the inode of the farm
  | @renamed v counter i filesLinked bytesFreed fs hpc hname hpath hothers =>
      rcases howes with hq | hbegun | hthrew
      · exact .inr (.inr (.inl hq))
      · rw [hpc] at hbegun
        cases hbegun
        cases hk'.symm.trans hpath
        exact .inr (.inl ⟨v.hash, (hothers (.farm v.hash) nofun nofun).trans hname⟩)
      · cases hpc.symm.trans hthrew

/-- Every call of a worker keeps the invariant. -/
theorem step (h : Converging store canLinkSymlink s₀ paths s)
    (hstart : Starts store canLinkSymlink s₀) (hfree : CollisionFree store s₀)
    (htree : TreeShaped s₀.fs) (hnodup : paths.Nodup) {a : OptimiseAct} (halone : s.Alone a)
    (hroomy : s.Roomy a) (hstep : optimiseStep store canLinkSymlink s a = some s') :
    Converging store canLinkSymlink s₀ paths s' := by
  cases a with
  | optimise n ans =>
      have hok := h.settled.apart (.optimise n ans)
      obtain ⟨hinv, hinodes, -⟩ := h.inv.optimise hstart hfree hok hstep
      have hsettled := h.settled.step hstep
      obtain ⟨x, hx, rfl⟩ := Option.map_eq_some_iff.mp hstep
      have hcalled := h.inv.called hstart hok (optimisePathStep_called hx)
        (optimisePathStep_thread hx).1
      rw [(h.plain n).1] at hx
      have hadvance := h.advance hfree halone hroomy hx
      have hspares : Spares s _ n := ⟨fun m hm => Function.update_of_ne hm _ _, hinodes,
        hadvance.frame.1, hadvance.frame.2, fun m hm k p hhold => hcalled.move.untouched h.inv
          (fun heq => hm (Sum.inl.inj heq)) hhold⟩
      refine h.moved hnodup hspares hinv hsettled ?_ ?_ (fun k i hk => hadvance.names hk) ?_ ?_ ?_
      · simp only [Function.update_self]
        rw [hadvance.plain.1, hadvance.plain.2]
        exact h.plain n
      · intro i hi
        simp only [(h.plain n).1, Function.update_self] at hi
        exact hadvance.known hi
      · simp only [Function.update_self]
        exact fun k => h.advance_own hadvance
      · simp only [Function.update_self]
        exact h.advance_knows hadvance hinodes
      · intro k i hk howes hk'
        simp only [Function.update_self]
        rcases h.advance_owes htree halone.2 hadvance hk howes hk' with hdone | hfarmed | howes'
        · exact .inl (hspares.done hdone)
        · exact .inl (.inl hfarmed)
        · exact .inr howes'
  | dedup n fault => exact halone.elim
  | flush ino n => exact halone.elim
  | gcLstat hash nlink => exact halone.elim
  | gcUnlink => exact halone.elim

end Converging

-- ============================================================================
-- The end of a pass
-- ============================================================================

variable {fs : StoreFs} {entries : List (Bytes × Nat)}

theorem starts_optimiseStore (hfarm : FarmInvariant store canLinkSymlink fs) :
    Starts store canLinkSymlink (optimiseStore fs (loadInodeHash entries) paths) :=
  ⟨hfarm, fun _ _ _ => rfl, fun _ => rfl, nofun, nofun⟩

theorem settled_optimiseStore : (optimiseStore fs (loadInodeHash entries) paths).Settled :=
  ⟨fun _ => rfl, fun _ => rfl⟩

theorem mem_todo_optimiseStore {n : Nat} {k : NodePath}
    (h : k ∈ ((optimiseStore fs (loadInodeHash entries) paths).optimisers n).todo) :
    ∃ p, paths[n]? = some p ∧ k = [p.baseName] := by
  obtain ⟨p, hp, rfl⟩ := Option.map_eq_some_iff.mp (Option.mem_toList.mp h)
  exact ⟨p, hp, rfl⟩

theorem known_of_listsFarm (h : ListsFarm fs entries) {i : Nat} (hi : i ∈ loadInodeHash entries)
    {k : Location} (hk : fs.names k = some (.object i)) :
    ∃ hash, fs.names (.farm hash) = some (.object i) := by
  obtain ⟨e, he, rfl⟩ := List.mem_map.mp hi
  rcases h e he with hfarm | hnone
  · exact hfarm
  · exact absurd hk (hnone k)

theorem converging_start (hfarm : FarmInvariant store canLinkSymlink fs)
    (hentries : ListsFarm fs entries) :
    Converging store canLinkSymlink (optimiseStore fs (loadInodeHash entries) paths) paths
      (optimiseStore fs (loadInodeHash entries) paths) := by
  refine ⟨inv_start (starts_optimiseStore hfarm), settled_optimiseStore, fun _ => ⟨rfl, rfl⟩,
    fun i hi k hk => known_of_listsFarm hentries hi hk, ?_, fun _ => trivial, ?_⟩
  · rintro n k (hk | hk)
    · obtain ⟨p, hp, rfl⟩ := mem_todo_optimiseStore hk
      exact ⟨p, hp, rfl⟩
    · cases hk
  · intro n p k i hp hk
    right
    left
    refine ⟨[p.baseName], ?_, k, rfl⟩
    show [p.baseName] ∈ (paths[n]?.map fun i => [i.baseName]).toList
    rw [hp]
    exact List.mem_singleton_self _

/-- After a pass nothing is left to do for any file. -/
theorem Converging.done (h : Converging store canLinkSymlink s₀ paths s) (hreturned : s.Returned)
    {p : StorePath} (hp : p ∈ paths) {k : NodePath} {i : Nat}
    (hk : s.fs.names (.store (p.baseName :: k)) = some (.object i)) : Done canLinkSymlink s i := by
  obtain ⟨n, hn⟩ := List.mem_iff_getElem?.mp hp
  obtain ⟨hpc, htodo⟩ := hreturned n
  rcases h.covered n p k i hn hk with hdone | ⟨q, hq, -⟩ | hbegun | hthrew
  · exact hdone
  · rw [htodo] at hq
    cases hq
  · rw [hpc] at hbegun
    cases hbegun
  · cases hpc.symm.trans hthrew

theorem Shareable.not_exempt {x : StoreInode} (h : Shareable x) : ¬ Exempt canLinkSymlink x := by
  obtain ⟨hwritable, executable, contents, hobject, hne⟩ := h
  unfold Exempt
  rw [hobject, hwritable]
  rintro (hw | hempty)
  · cases hw
  · exact hne hempty

/-- Equal files below paths are one link of the farm. -/
theorem Converging.shared (h : Converging store canLinkSymlink s₀ paths s)
    (hreturned : s.Returned) {p q : StorePath} (hp : p ∈ paths) (hq : q ∈ paths) {k l : NodePath}
    {i j : Nat} (hk : s.fs.names (.store (p.baseName :: k)) = some (.object i))
    (hl : s.fs.names (.store (q.baseName :: l)) = some (.object j))
    (hi : Shareable (s.fs.inodes i)) (hj : Shareable (s.fs.inodes j))
    (hsame : (s.fs.inodes i).object = (s.fs.inodes j).object) :
    i = j ∧ ∃ hash, hashPath store (s.fs.inodes i).object = .ok hash ∧
      s.fs.names (.farm hash) = some (.object i) := by
  have hfarmed : ∀ {i : Nat}, Done canLinkSymlink s i → Shareable (s.fs.inodes i) →
      ∃ hash, hashPath store (s.fs.inodes i).object = .ok hash ∧
        s.fs.names (.farm hash) = some (.object i) := by
    intro i hdone hshareable
    obtain ⟨hash, hname⟩ := hdone.resolve_right hshareable.not_exempt
    obtain ⟨i', heq, -, hhash⟩ := h.inv.kept.farmInvariant hash _ hname
    cases heq
    exact ⟨hash, hhash, hname⟩
  obtain ⟨hash, hhash, hname⟩ := hfarmed (h.done hreturned hp hk) hi
  obtain ⟨hash', hhash', hname'⟩ := hfarmed (h.done hreturned hq hl) hj
  rw [hsame, hhash'] at hhash
  cases hhash
  cases hname.symm.trans hname'
  exact ⟨rfl, hash, hsame ▸ hhash', hname⟩

-- ============================================================================
-- Another pass
-- ============================================================================

/-- A file is the link for its hash. -/
def Links (store : StoreDirConfig) (fs : StoreFs) (st : Stat) : Prop :=
  st.size = (fs.inodes st.ino).object.size ∧ ∃ hash,
    fs.names (.farm hash) = some (.object st.ino) ∧
    hashPath store (fs.inodes st.ino).object = .ok hash

/-- What a thread of another pass has found. -/
def FindsLinks (store : StoreDirConfig) (fs : StoreFs) : OptimisePc → Prop
  | .next | .threw => True
  | .hash path st => fs.names (.store path) = some (.object st.ino) ∧ Links store fs st
  | .lookup v => v.st.size = (fs.inodes v.st.ino).object.size ∧
      fs.names (.farm v.hash) = some (.object v.st.ino)
  | _ => False

/-- What holds while another pass is at work. -/
structure Idle (store : StoreDirConfig) (paths : List StorePath) (fs : StoreFs) (s : Optimising) :
    Prop where
  fs_eq : s.fs = fs
  plain : ∀ n, (s.optimisers n).repair = false ∧ ∀ path, (s.optimisers n).fileHashes path = none
  own : ∀ n, ∀ k ∈ (s.optimisers n).todo, ∃ p ∈ paths, ∃ l, k = p.baseName :: l
  finds : ∀ n, FindsLinks store fs (s.optimisers n).pc
  still : ∀ n, (s.optimisers n).filesLinked = 0 ∧ (s.optimisers n).bytesFreed = 0

theorem idle_start : Idle store paths fs (optimiseStore fs (loadInodeHash entries) paths) := by
  refine ⟨rfl, fun _ => ⟨rfl, fun _ => rfl⟩, fun n k hk => ?_, fun _ => trivial,
    fun _ => ⟨rfl, rfl⟩⟩
  obtain ⟨p, hp, rfl⟩ := mem_todo_optimiseStore hk
  exact ⟨p, List.mem_of_getElem? hp, [], rfl⟩

/-- A file that is not skipped is not one that is left alone. -/
theorem not_exempt_of_not_skipped {path : NodePath} {nlink : Nat} {inodeHash : List Nat} {st : Stat}
    (hst : maybeLstat fs (.store path) nlink = some st) (htype : st.type ≠ .directory)
    (h : skipped canLinkSymlink inodeHash st = false) :
    ¬ Exempt canLinkSymlink (fs.inodes st.ino) := by
  obtain ⟨-, hsize, htype', hwritable⟩ := maybeLstat_object hst htype
  simp only [skipped, decide_eq_false_iff_not, not_or] at h
  obtain ⟨hsymlink, hw, hempty, -⟩ := h
  unfold Exempt
  cases hobject : (fs.inodes st.ino).object with
  | regular executable contents =>
      rw [hobject] at htype' hsize
      rintro (hwritable' | hnil)
      · exact hw ⟨htype', hwritable.trans hwritable'⟩
      · rw [hnil] at hsize
        exact hempty ⟨htype', hsize⟩
  | symlink target =>
      rw [hobject] at htype'
      exact fun hcannot => hsymlink ⟨htype', hcannot⟩

/-- What one call of a thread of another pass does: nothing. -/
structure Idles (store : StoreDirConfig) (paths : List StorePath) (fs : StoreFs) (o : Optimiser)
    (x : OptimiseStep) : Prop where
  fs_eq : x.fs = fs
  plain : x.thread.repair = o.repair ∧ x.thread.fileHashes = o.fileHashes
  own : ∀ k ∈ x.thread.todo, ∃ p ∈ paths, ∃ l, k = p.baseName :: l
  finds : FindsLinks store fs x.thread.pc
  still : x.thread.filesLinked = o.filesLinked ∧ x.thread.bytesFreed = o.bytesFreed

theorem idles_of_links
    (hdone : ∀ p ∈ paths, ∀ k i, fs.names (.store (p.baseName :: k)) = some (.object i) →
      ¬ Exempt canLinkSymlink (fs.inodes i) → ∃ hash, fs.names (.farm hash) = some (.object i) ∧
        hashPath store (fs.inodes i).object = .ok hash)
    {inodeHash : List Nat} {o : Optimiser}
    (hplain : o.repair = false ∧ ∀ path, o.fileHashes path = none)
    (hown : ∀ k ∈ o.todo, ∃ p ∈ paths, ∃ l, k = p.baseName :: l)
    (hfinds : FindsLinks store fs o.pc) {ans : Answer} {x : OptimiseStep}
    (hx : optimisePathStep store canLinkSymlink ⟨fs, inodeHash, o⟩ ans = some x) :
    Idles store paths fs o x := by
  cases hpc : o.pc with
  -- at `next` a directory is listed, and a file is one of the farm or skipped
  | next =>
      simp only [optimisePathStep, hpc] at hx
      split at hx
      · cases hx
      · next path rest htodo =>
          have hrest : ∀ k ∈ rest, ∃ p ∈ paths, ∃ l, k = p.baseName :: l := by
            intro k hk
            refine hown k ?_
            rw [htodo]
            exact List.mem_cons_of_mem _ hk
          obtain ⟨p, hp, l, rfl⟩ := hown path (by rw [htodo]; exact List.mem_cons_self)
          split at hx
          · cases hx
            exact ⟨rfl, ⟨rfl, rfl⟩, hown, trivial, ⟨rfl, rfl⟩⟩
          · next st hst =>
              split at hx
              · cases hx
                refine ⟨rfl, ⟨rfl, rfl⟩, fun k hk => ?_, trivial, ⟨rfl, rfl⟩⟩
                rcases List.mem_append.mp hk with hchild | hk
                · obtain ⟨name, -, rfl⟩ := List.mem_map.mp hchild
                  exact ⟨p, hp, l ++ [name], rfl⟩
                · exact hrest k hk
              · next htype =>
                  obtain ⟨hname, hsize, -⟩ := maybeLstat_object hst htype
                  split at hx
                  · cases hx
                    exact ⟨rfl, ⟨rfl, rfl⟩, hrest, trivial, ⟨rfl, rfl⟩⟩
                  · next hskip =>
                      cases hx
                      refine ⟨rfl, ⟨rfl, rfl⟩, hrest, ⟨hname, hsize, ?_⟩, ⟨rfl, rfl⟩⟩
                      exact hdone p hp l st.ino hname
                        (not_exempt_of_not_skipped hst htype (Bool.eq_false_iff.mpr hskip))
  -- hashes are computed, and the farm has the file under that hash
  | hash path st =>
      rw [hpc] at hfinds
      obtain ⟨hname, hsize, hash, hfarm, hhash⟩ := hfinds
      have hcaptured : (if st.type = .regular then o.fileHashes path else none) = none := by
        split
        · exact hplain.2 path
        · rfl
      simp only [optimisePathStep, hpc, hcaptured] at hx
      split at hx
      · next hash' hdisk =>
          cases hx
          have hhash' : hashPath store (fs.inodes st.ino).object = .ok hash' :=
            hashPath_of_hashAt hname hdisk
          cases hhash.symm.trans hhash'
          exact ⟨rfl, ⟨rfl, rfl⟩, hown, ⟨hsize, hfarm⟩, ⟨rfl, rfl⟩⟩
      · cases hx
        exact ⟨rfl, ⟨rfl, rfl⟩, hown, trivial, ⟨rfl, rfl⟩⟩
  -- the entry found is the file itself, so nothing is linked
  | lookup v =>
      rw [hpc] at hfinds
      obtain ⟨hsize, hfarm⟩ := hfinds
      simp only [optimisePathStep, hpc, maybeLstat, hfarm] at hx
      have hrepair : ¬ o.repair = true := by
        rw [hplain.1]
        exact Bool.false_ne_true
      rw [if_neg (fun hdiffer => hdiffer hsize), if_neg hrepair, if_pos trivial] at hx
      cases hx
      exact ⟨rfl, ⟨rfl, rfl⟩, hown, trivial, ⟨rfl, rfl⟩⟩
  -- it does not get there
  | compare | unlink | addLink | again | link | rename | remove =>
      rw [hpc] at hfinds
      exact hfinds.elim
  | threw =>
      simp only [optimisePathStep, hpc] at hx
      cases hx

/-- The calls of another pass change nothing. -/
theorem Idle.step (h : Idle store paths fs s)
    (hdone : ∀ p ∈ paths, ∀ k i, fs.names (.store (p.baseName :: k)) = some (.object i) →
      ¬ Exempt canLinkSymlink (fs.inodes i) → ∃ hash, fs.names (.farm hash) = some (.object i) ∧
        hashPath store (fs.inodes i).object = .ok hash)
    {a : OptimiseAct} (halone : s.Alone a)
    (hstep : optimiseStep store canLinkSymlink s a = some s') : Idle store paths fs s' := by
  cases a with
  | optimise n ans =>
      obtain ⟨x, hx, rfl⟩ := Option.map_eq_some_iff.mp hstep
      rw [h.fs_eq] at hx
      have hidles := idles_of_links hdone (h.plain n) (h.own n) (h.finds n) hx
      have hthread : ∀ {P : Optimiser → Prop} (m : Nat), P x.thread → P (s.optimisers m) →
          P (Function.update s.optimisers n x.thread m) := by
        intro P m hnew hold
        by_cases hm : m = n
        · subst hm
          rw [Function.update_self]
          exact hnew
        · rw [Function.update_of_ne hm]
          exact hold
      refine ⟨hidles.fs_eq, fun m => ?_, fun m => ?_, fun m => ?_, fun m => ?_⟩
      · apply hthread (P := fun o => o.repair = false ∧ ∀ path, o.fileHashes path = none) m
        · rw [hidles.plain.1, hidles.plain.2]
          exact h.plain n
        · exact h.plain m
      · exact hthread (P := fun o => ∀ k ∈ o.todo, ∃ p ∈ paths, ∃ l, k = p.baseName :: l) m
          hidles.own (h.own m)
      · exact hthread (P := fun o => FindsLinks store fs o.pc) m hidles.finds (h.finds m)
      · apply hthread (P := fun o => o.filesLinked = 0 ∧ o.bytesFreed = 0) m
        · rw [hidles.still.1, hidles.still.2]
          exact h.still n
        · exact h.still m
  | dedup n fault => exact halone.elim
  | flush ino n => exact halone.elim
  | gcLstat hash nlink => exact halone.elim
  | gcUnlink => exact halone.elim

variable (store canLinkSymlink) in
/-- One pass of `optimiseStore` over a store that nobody else uses, where the
    links directory has room, leaves equal files on one inode, which is in the
    farm, and nothing to link for the next pass. -/
theorem optimiseStore_converges (st st' : LocalStore) (paths : List StorePath)
    (hknows : LocalStore.KnowsValid store st)
    (hpaths : LocalStore.pathsToOptimise store st = .ok paths st') (fs : StoreFs)
    (entries : List (Bytes × Nat)) (hfarm : FarmInvariant store canLinkSymlink fs)
    (hfree : CollisionFree store (optimiseStore fs (loadInodeHash entries) paths))
    (htree : TreeShaped fs) (hentries : ListsFarm fs entries) (s : Optimising)
    (hreach : (optimising store canLinkSymlink
      (optimiseStore fs (loadInodeHash entries) paths)).Reachable
        (fun s a => s.Alone a ∧ s.Roomy a) s)
    (hreturned : s.Returned) : Converged store canLinkSymlink st.db s := by
  obtain ⟨hnodup, hmem⟩ := LocalStore.mem_pathsToOptimise hknows hpaths
  have h : Converging store canLinkSymlink (optimiseStore fs (loadInodeHash entries) paths) paths
      s := by
    refine hreach.invariant ?_ ?_
    · rintro t rfl
      exact converging_start hfarm hentries
    · intro t t' a ht hok hstep
      exact ht.step (starts_optimiseStore hfarm) hfree htree hnodup hok.1 hok.2 hstep
  refine ⟨fun p q k l i j hp hq hk hl hi hj hsame => ?_, ?_⟩
  · exact h.shared hreturned ((hmem p).mpr hp) ((hmem q).mpr hq) hk hl hi hj hsame
  · intro st₁ paths₁ st₁' entries₁ t hdb hknows₁ hpaths₁ hreach₁
    obtain ⟨-, hmem₁⟩ := LocalStore.mem_pathsToOptimise hknows₁ hpaths₁
    have hdone : ∀ p ∈ paths₁, ∀ k i, s.fs.names (.store (p.baseName :: k)) = some (.object i) →
        ¬ Exempt canLinkSymlink (s.fs.inodes i) →
        ∃ hash, s.fs.names (.farm hash) = some (.object i) ∧
          hashPath store (s.fs.inodes i).object = .ok hash := by
      intro p hp k i hk hnot
      have hvalid := (hmem₁ p).mp hp
      rw [hdb] at hvalid
      obtain ⟨hash, hname⟩ :=
        (h.done hreturned ((hmem p).mpr hvalid) hk).resolve_right hnot
      obtain ⟨i', heq, -, hhash⟩ := h.inv.kept.farmInvariant hash _ hname
      cases heq
      exact ⟨hash, hname, hhash⟩
    refine (hreach₁.invariant (I := Idle store paths₁ s.fs) ?_ ?_).still
    · rintro t rfl
      exact idle_start
    · intro t t' a ht hok hstep
      exact ht.step hdone hok hstep

/-- A thread that makes no call stays as it is. -/
theorem optimisers_runChecked {check : Optimising → OptimiseAct → Bool} {n : Nat}
    (hcheck : ∀ s a, check s a = true → ∀ ans, a ≠ .optimise n ans) {l : List OptimiseAct}
    (hrun : (optimising store canLinkSymlink s₀).runChecked check l s = some s') :
    s'.optimisers n = s.optimisers n := by
  induction l generalizing s with
  | nil =>
      cases hrun
      rfl
  | cons a rest ih =>
      simp only [System.runChecked] at hrun
      split at hrun
      · next hpass =>
          obtain ⟨t, ht, hrest⟩ := Option.bind_eq_some_iff.mp hrun
          rw [ih hrest]
          cases a with
          | optimise m ans =>
              obtain ⟨x, -, rfl⟩ := Option.map_eq_some_iff.mp ht
              exact Function.update_of_ne (fun heq => hcheck s _ hpass ans (by rw [heq])) _ _
          | dedup m fault =>
              obtain ⟨d, -, hd⟩ := Option.bind_eq_some_iff.mp ht
              obtain ⟨x, -, rfl⟩ := Option.map_eq_some_iff.mp hd
              rfl
          | flush ino m =>
              cases ht
              rfl
          | gcLstat hash nlink =>
              obtain ⟨st, -, rfl⟩ := Option.map_eq_some_iff.mp ht
              rfl
          | gcUnlink =>
              obtain ⟨hash, -, rfl⟩ := Option.map_eq_some_iff.mp ht
              rfl
      · cases hrun

namespace Sample

open LocalStore.Sample (pathA pathB row)

/-- Two valid paths. -/
def copies : Db where
  validPaths := [row pathA 1, row pathB 2]
  refs := ∅
  derivationOutputs := []
  lastId := 2
  id_le := by decide +kernel
  ids_nodup := by decide +kernel
  paths_nodup := by decide +kernel
  refs_foreign := by decide +kernel
  outputs_foreign := by decide +kernel

/-- A store with that database and nothing in its cache. -/
def uncached : LocalStore := { LocalStore.fresh 10 with db := copies }

theorem knowsValid_uncached : LocalStore.KnowsValid linked uncached := fun _ _ h => nomatch h

/-- The first path is a file, the second a directory with an equal file. -/
def spread : StoreFs where
  names k :=
    if k = .store [pathA.baseName] then some (.object 0)
    else if k = .store [pathB.baseName] then some .directory
    else if k = .store [pathB.baseName, ascii "f"] then some (.object 1)
    else none
  inodes _ := { object := .regular false (ascii "x"), writable := false }
  next := 2
  allocated := by
    intro k i h
    split at h
    · cases h
      decide
    split at h
    · cases h
    split at h
    · cases h
      decide
    · cases h

/-- `optimiseStore` on it. -/
def begin : Optimising := optimiseStore spread (loadInodeHash []) [pathA, pathB]

theorem pathsToOptimise_uncached :
    ∃ st, LocalStore.pathsToOptimise linked uncached = .ok [pathA, pathB] st := by
  have hqueue : (match LocalStore.pathsToOptimise linked uncached with
    | .ok paths _ => some paths
    | .error _ _ => none) = some [pathA, pathB] := by decide +kernel
  cases hrun : LocalStore.pathsToOptimise linked uncached with
  | ok paths st =>
      rw [hrun] at hqueue
      cases hqueue
      exact ⟨st, rfl⟩
  | error e st =>
      rw [hrun] at hqueue
      cases hqueue

theorem farmInvariant_spread : FarmInvariant linked true spread := fun _ _ h => nomatch h

theorem collisionFree_begin : CollisionFree linked begin := fun _ _ _ _ _ _ _ _ _ => rfl

theorem listsFarm_spread : ListsFarm spread [] := nofun

theorem names_spread {k : NodePath} {e : Entry} (h : spread.names (.store k) = some e) :
    (k = [pathA.baseName] ∧ e = .object 0) ∨ (k = [pathB.baseName] ∧ e = .directory) ∨
      (k = [pathB.baseName, ascii "f"] ∧ e = .object 1) := by
  simp only [spread, Location.store.injEq] at h
  split at h
  · next hk => exact .inl ⟨hk, (Option.some.inj h).symm⟩
  split at h
  · next hk => exact .inr (.inl ⟨hk, (Option.some.inj h).symm⟩)
  split at h
  · next hk => exact .inr (.inr ⟨hk, (Option.some.inj h).symm⟩)
  · cases h

theorem treeShaped_spread : TreeShaped spread := by
  intro path name hpath hname
  obtain ⟨e, he⟩ := Option.ne_none_iff_exists'.mp hname
  rcases names_spread he with ⟨hk, -⟩ | ⟨hk, -⟩ | ⟨hk, -⟩
  · exact absurd (List.append_eq_singleton_iff.mp hk) (by simp [hpath])
  · exact absurd (List.append_eq_singleton_iff.mp hk) (by simp [hpath])
  · have hsplit : path ++ [name] = [pathB.baseName] ++ [ascii "f"] := hk
    obtain ⟨rfl, hf⟩ := List.append_inj' hsplit rfl
    rw [List.singleton_inj.mp hf]
    exact ⟨by decide +kernel, by decide +kernel, by decide +kernel⟩

/-- What `readdir` returns for the directory. -/
def entriesB : List (Bytes × Nat) := [(ascii "f", 1)]

theorem lists_spread : Lists spread [] [pathB.baseName] entriesB := by
  have hsingle : ∀ name e, spread.names (.store ([pathB.baseName] ++ [name])) = some e →
      name = ascii "f" ∧ e = .object 1 := by
    intro name e he
    rcases names_spread he with ⟨hk, -⟩ | ⟨hk, -⟩ | ⟨hk, rfl⟩
    · exact absurd (congrArg List.length hk) (by simp)
    · exact absurd (congrArg List.length hk) (by simp)
    · exact ⟨(List.cons.inj (List.cons.inj hk).2).1, rfl⟩
  refine ⟨fun name i h => ?_, fun name h => ?_⟩
  · obtain ⟨rfl, hi⟩ := hsingle name _ h
    cases hi
    exact List.mem_singleton_self _
  · obtain ⟨-, hdirectory⟩ := hsingle name _ h
    cases hdirectory

/-- The second thread has read its directory. -/
def begun : Option Optimising :=
  optimiseStep linked true begin
    (.optimise 1 { nlink := 1, entries := entriesB, fault := none, counter := 0 })

/-- The next call of a thread. -/
def go (n : Nat) (fault : Option Errno) : OptimiseAct :=
  .optimise n { nlink := 1, entries := [], fault, counter := 0 }

/-- A call of one of the two threads, with one of these faults, at a file. -/
def atFile (faults : List (Option Errno)) (s : Optimising) : OptimiseAct → Bool
  | .optimise n ans => n < 2 && ans.fault ∈ faults &&
      ((s.optimisers n).todo.head?.all fun path => s.fs.names (.store path) ≠ some .directory)
  | _ => false

theorem alone_of_atFile {faults : List (Option Errno)}
    (hfaults : ∀ e, some e ∈ faults → e = .noSpace) {s : Optimising} {a : OptimiseAct}
    (h : atFile faults s a = true) : s.Alone a := by
  cases a with
  | optimise n ans =>
      simp only [atFile, Bool.and_eq_true, decide_eq_true_eq] at h
      refine ⟨fun e he => .inl (hfaults e (he ▸ h.1.2)), fun path rest _ htodo hdir => ?_⟩
      have hfile := h.2
      rw [htodo] at hfile
      simp only [List.head?_cons, Option.all_some, decide_eq_true_eq] at hfile
      exact absurd hdir hfile
  | dedup n fault => cases h
  | flush ino n => cases h
  | gcLstat hash nlink => cases h
  | gcUnlink => cases h

theorem roomy_of_atFile {s : Optimising} {a : OptimiseAct} (h : atFile [none] s a = true) :
    s.Roomy a := by
  cases a with
  | optimise n ans =>
      intro v _ hfault
      simp only [atFile, hfault, Bool.and_eq_true, decide_eq_true_eq] at h
      cases List.mem_singleton.mp h.1.2
  | dedup n fault => trivial
  | flush ino n => trivial
  | gcLstat hash nlink => trivial
  | gcUnlink => trivial

theorem alone_opening :
    begin.Alone (.optimise 1 { nlink := 1, entries := entriesB, fault := none, counter := 0 }) := by
  refine ⟨nofun, fun path rest _ htodo _ => ?_⟩
  have hpath : [[pathB.baseName]] = path :: rest := htodo
  rw [← (List.cons.inj hpath).1]
  exact lists_spread

/-- A thread has nothing more to do. -/
def returned (o : Optimiser) : Bool := o.pc = .next ∧ o.todo = []

/-- The other threads have nothing to do. -/
theorem returned_of_both {faults : List (Option Errno)} {t s : Optimising} {l : List OptimiseAct}
    (hbegun : begun = some t)
    (hrun : (optimising linked true begin).runChecked (atFile faults) l t = some s)
    (hboth : (returned (s.optimisers 0), returned (s.optimisers 1)) = (true, true)) :
    s.Returned := by
  obtain ⟨hzero, hone⟩ := Prod.mk.inj hboth
  intro n
  match n with
  | 0 => exact of_decide_eq_true hzero
  | 1 => exact of_decide_eq_true hone
  | n + 2 =>
      have hidle : s.optimisers (n + 2) = t.optimisers (n + 2) := by
        refine optimisers_runChecked (fun s a ha ans heq => ?_) hrun
        rw [heq] at ha
        simp [atFile] at ha
      have hstart : t.optimisers (n + 2) = begin.optimisers (n + 2) := by
        rw [begun, optimiseStep] at hbegun
        obtain ⟨x, -, rfl⟩ := Option.map_eq_some_iff.mp hbegun
        have hne : n + 2 ≠ 1 := by omega
        show Function.update begin.optimisers 1 x.thread (n + 2) = begin.optimisers (n + 2)
        rw [Function.update_of_ne hne]
      rw [hidle, hstart]
      exact ⟨rfl, rfl⟩

end Sample

/-- The second thread finds the link that the first one has added meanwhile. -/
theorem optimiseStore_converges_spread : ∃ s,
    s.fs.names (.store [LocalStore.Sample.pathB.baseName, ascii "f"]) = some (.object 0) ∧
    Converged Sample.linked true Sample.uncached.db s := by
  obtain ⟨s, hrun, hend⟩ : ∃ s, (Sample.begun.bind fun t =>
      (optimising Sample.linked true Sample.begin).runChecked (Sample.atFile [none])
        ([0, 1, 0, 1, 0, 1, 0, 1, 1, 1, 1].map fun n => Sample.go n none) t) = some s ∧
      ((Sample.returned (s.optimisers 0), Sample.returned (s.optimisers 1)),
        s.fs.names (.store [LocalStore.Sample.pathB.baseName, ascii "f"]))
        = ((true, true), some (.object 0)) := by
    refine Option.map_eq_some_iff.mp ?_
    decide +kernel
  obtain ⟨hboth, hname⟩ := Prod.mk.inj hend
  obtain ⟨t, hbegun, hrest⟩ := Option.bind_eq_some_iff.mp hrun
  obtain ⟨st, hpaths⟩ := Sample.pathsToOptimise_uncached
  have hreach : (optimising Sample.linked true Sample.begin).Reachable
      (fun s a => s.Alone a ∧ s.Roomy a) t :=
    .step (.init rfl) ⟨Sample.alone_opening, fun _ hpc => nomatch hpc⟩ hbegun
  refine ⟨s, hname, optimiseStore_converges Sample.linked true Sample.uncached st _
    Sample.knowsValid_uncached hpaths Sample.spread [] Sample.farmInvariant_spread
    Sample.collisionFree_begin Sample.treeShaped_spread Sample.listsFarm_spread s ?_
    (Sample.returned_of_both hbegun hrest hboth)⟩
  refine hreach.runChecked (fun s a ha => ⟨Sample.alone_of_atFile ?_ ha, ?_⟩) hrest
  · intro e he
    cases List.mem_singleton.mp he
  · exact Sample.roomy_of_atFile ha

/-- Where the links directory is full, a file is not linked, and an equal one
    that comes later is the link. -/
theorem optimiseStore_full :
    LocalStore.KnowsValid Sample.linked Sample.uncached ∧
    (∃ st, LocalStore.pathsToOptimise Sample.linked Sample.uncached
      = .ok [LocalStore.Sample.pathA, LocalStore.Sample.pathB] st) ∧
    FarmInvariant Sample.linked true Sample.spread ∧
    CollisionFree Sample.linked Sample.begin ∧ TreeShaped Sample.spread ∧
    ListsFarm Sample.spread [] ∧
    ∃ s, (optimising Sample.linked true (optimiseStore Sample.spread (loadInodeHash [])
        [LocalStore.Sample.pathA, LocalStore.Sample.pathB])).Reachable Alone s ∧ s.Returned ∧
      ¬ Converged Sample.linked true Sample.uncached.db s := by
  refine ⟨Sample.knowsValid_uncached, Sample.pathsToOptimise_uncached, Sample.farmInvariant_spread,
    Sample.collisionFree_begin, Sample.treeShaped_spread, Sample.listsFarm_spread, ?_⟩
  obtain ⟨s, hrun, hend⟩ : ∃ s, (Sample.begun.bind fun t =>
      (optimising Sample.linked true Sample.begin).runChecked (Sample.atFile [none, some .noSpace])
        ([(0, none), (0, none), (0, none), (0, some .noSpace), (1, none), (1, none), (1, none),
          (1, none)].map fun c => Sample.go c.1 c.2) t) = some s ∧
      ((Sample.returned (s.optimisers 0), Sample.returned (s.optimisers 1)),
        s.fs.names (.store [LocalStore.Sample.pathA.baseName]),
        s.fs.names (.store [LocalStore.Sample.pathB.baseName, ascii "f"]),
        s.fs.inodes 0, s.fs.inodes 1)
        = ((true, true), some (.object 0), some (.object 1),
          ⟨.regular false (ascii "x"), false⟩, ⟨.regular false (ascii "x"), false⟩) := by
    refine Option.map_eq_some_iff.mp ?_
    decide +kernel
  simp only [Prod.mk.injEq] at hend
  obtain ⟨hboth, hA, hB, hzero, hone⟩ := hend
  obtain ⟨t, hbegun, hrest⟩ := Option.bind_eq_some_iff.mp hrun
  have hreach : (optimising Sample.linked true Sample.begin).Reachable Alone t :=
    .step (.init rfl) Sample.alone_opening hbegun
  refine ⟨s, ?_, Sample.returned_of_both hbegun hrest (Prod.ext hboth.1 hboth.2), fun h => ?_⟩
  · refine hreach.runChecked (fun s a ha => Sample.alone_of_atFile (fun e he => ?_) ha) hrest
    rcases List.mem_cons.mp he with heq | he
    · cases heq
    · exact Option.some.inj (List.mem_singleton.mp he)
  · have hshareable : ∀ i, s.fs.inodes i = ⟨.regular false (ascii "x"), false⟩ →
        Shareable (s.fs.inodes i) := by
      intro i hi
      rw [hi]
      exact ⟨rfl, false, ascii "x", rfl, by decide⟩
    obtain ⟨heq, -⟩ := h.shared LocalStore.Sample.pathA LocalStore.Sample.pathB [] [ascii "f"] 0 1
      (by decide +kernel) (by decide +kernel) hA hB (hshareable 0 hzero) (hshareable 1 hone)
      (by rw [hzero, hone])
    cases heq

end Optimising

end NixStore
