/-
  NixStore.Store.VerifyPaths

  `verifyAllValidPaths` and `verifyPath` (`libstore/local-store.cc`): drop the
  rows of paths that are gone from the store directory.

  A missing path is dropped after its referrers have been looked at.  Whether it
  may go is decided by which of them exist.  A referrer that is missing too may
  have been kept because of a referrer of its own, and then the row that is to
  be dropped is still referenced.  This never happens if, and only if, each
  missing path that an existing path reaches by references is a direct reference
  of an existing path.
-/

import NixStore.Store.RefsGraph

namespace NixStore
namespace LocalStore

open Effect OrderedSet Wire Relation

variable (store : StoreDirConfig)

-- ============================================================================
-- The walk
-- ============================================================================

/-- The store with the variables that `verifyPath` gets by reference. -/
structure Verifying extends LocalStore where
  done : Finset StorePath
  validPaths : Finset StorePath
  errors : Bool

abbrev VerifyM := EStateM Error Verifying

/-- Run what only needs the store. -/
def onVerified {α : Type} (x : StoreM α) : VerifyM α :=
  zoom (·.toLocalStore) (fun t s => { s with toLocalStore := t }) x

/-- The loop over the referrers of a path: whether none of them is valid. -/
def verifyReferrers (visit : StorePath → VerifyM Unit) (path : StorePath) :
    List StorePath → Bool → VerifyM Bool
  | [], canInvalidate => pure canInvalidate
  | i :: rest, canInvalidate =>
      if i ≠ path then do
        visit i
        let s ← get
        verifyReferrers visit path rest (if i ∈ s.validPaths then false else canInvalidate)
      else verifyReferrers visit path rest canInvalidate

/-- `LocalStore::verifyPath`.  The recursion goes one step deeper for every path
    that is put into `done`, so the number of valid paths bounds it. -/
def verifyPath (existsInStoreDir : StorePath → Bool) : Nat → StorePath → VerifyM Unit
  | 0, _ => pure ()
  | depth + 1, path => do
      let s ← get
      if path ∈ s.done then pure ()
      else do
        set { s with done := insert path s.done }
        if existsInStoreDir path = false then do
          let referrers ← onVerified (onDb fun db => (queryReferrers store db path).map (·, db))
          let canInvalidate ← verifyReferrers (verifyPath existsInStoreDir depth) path
            (inOrder referrers) true
          if canInvalidate then onVerified (invalidatePath store path)
          else modify fun s => { s with errors := true }
        else modify fun s => { s with validPaths := insert path s.validPaths }

/-- `LocalStore::queryAllValidPaths`. -/
def queryAllValidPaths : StoreM (Finset StorePath) :=
  onDb fun db => (readStorePaths store (db.validPaths.map fun r => r.path)).map (·, db)

/-- `VerificationResult`. -/
structure VerificationResult where
  errors : Bool
  validPaths : Finset StorePath

/-- The names in the store directory that are store paths. -/
def storePathsInStoreDir (listing : List Bytes) : List StorePath :=
  listing.filterMap fun name => (StorePath.ofBaseName name).toOption

/-- The lambda `existsInStoreDir`. -/
def existsInStoreDir (listing : List Bytes) (path : StorePath) : Bool :=
  path ∈ storePathsInStoreDir listing

/-- The loop of `verifyAllValidPaths`, with its local variables. -/
def verifyPaths (listing : List Bytes) (paths : Finset StorePath) : StoreM VerificationResult :=
  fun s =>
    match ((inOrder paths).forM (verifyPath store (existsInStoreDir listing) (paths.card + 1)))
        { s with done := ∅, validPaths := ∅, errors := false } with
    | .ok _ t => .ok { errors := t.errors, validPaths := t.validPaths } t.toLocalStore
    | .error e t => .error e t.toLocalStore

/-- `LocalStore::verifyAllValidPaths`, where the store directory has these
    entries. -/
def verifyAllValidPaths (listing : List Bytes) : StoreM VerificationResult := do
  let paths ← queryAllValidPaths store
  verifyPaths store listing paths

-- ============================================================================
-- Paths that may go
-- ============================================================================

section Graph

variable (db : Db) (E : StorePath → Bool)

/-- A path of the database refers to another. -/
def PathRefers (p q : StorePath) : Prop :=
  db.Refers (store.printStorePath p) (store.printStorePath q)

/-- A valid path that is missing, and no existing path refers to it. -/
structure Doomed (p : StorePath) : Prop where
  valid : db.Valid (store.printStorePath p)
  missing : E p = false
  referrers : ∀ q, PathRefers store db q p → E q = false

/-- Nothing that stays refers to something that goes. -/
def Closed : Prop := ∀ p, Doomed store db E p → ∀ q, PathRefers store db q p → Doomed store db E q

/-- Each missing path that an existing path reaches by references is a direct
    reference of an existing path. -/
def DirectlyKept : Prop :=
  ∀ p, E p = false → (∃ q, E q = true ∧ TransGen (PathRefers store db) q p) →
    ∃ q, E q = true ∧ PathRefers store db q p

theorem directlyKept_iff : DirectlyKept store db E ↔ Closed store db E := by
  constructor
  · intro h p hp q hqp
    refine ⟨hqp.valid.1, hp.referrers q hqp, fun r hrq => ?_⟩
    by_contra hr
    obtain ⟨r', hr', hr'p⟩ := h p hp.missing ⟨r, by simpa using hr, (TransGen.single hrq).tail hqp⟩
    rw [hp.referrers r' hr'p] at hr'
    cases hr'
  · rintro h p hmissing ⟨q, hq, hqp⟩
    by_contra hnone
    have hvalid : db.Valid (store.printStorePath p) := by
      cases hqp with
      | single hqp => exact hqp.valid.2
      | tail _ hrp => exact hrp.valid.2
    have hdoomed : Doomed store db E p := by
      refine ⟨hvalid, hmissing, fun r hrp => ?_⟩
      by_contra hr
      exact hnone ⟨r, by simpa using hr, hrp⟩
    -- then everything that reaches the path would go
    have hall : ∀ x, ReflTransGen (PathRefers store db) x p → Doomed store db E x := by
      intro x hx
      induction hx using ReflTransGen.head_induction_on with
      | refl => exact hdoomed
      | head hxy _ ih => exact h _ ih _ hxy
    rw [(hall q hqp.to_reflTransGen).missing] at hq
    cases hq

end Graph

-- ============================================================================
-- What the walk keeps
-- ============================================================================

/-- The rows are those of paths whose texts can be read back. -/
def ReadableRows (db : Db) : Prop :=
  ∀ t, db.Valid t → ∃ p, t = store.printStorePath p ∧ Readable p

/-- What holds between two visits, where the visits of the paths in `open_` have
    not ended. -/
structure VerifyInv (db : Db) (E : StorePath → Bool) (open_ : Finset StorePath) (s : Verifying) :
    Prop where
  valid : ∀ p, s.db.Valid (store.printStorePath p) ↔ db.Valid (store.printStorePath p) ∧
    ¬ (p ∈ s.done ∧ p ∉ open_ ∧ Doomed store db E p)
  rows : ∀ t, s.db.Valid t → db.Valid t
  refers : ∀ t u, s.db.Refers t u ↔ db.Refers t u ∧ s.db.Valid t ∧ s.db.Valid u
  validPaths : ∀ p, p ∈ s.validPaths ↔ p ∈ s.done ∧ E p = true
  open_done : open_ ⊆ s.done
  closed : ∀ p ∈ s.done, p ∉ open_ → Doomed store db E p →
    ∀ q, PathRefers store db q p → Doomed store db E q

variable {store} {db : Db} {E : StorePath → Bool} {open_ : Finset StorePath}

/-- A column of texts that can be read back. -/
theorem readStorePaths_printed {ts : List Bytes}
    (h : ∀ t ∈ ts, ∃ p, t = store.printStorePath p ∧ Readable p) :
    ∃ S, readStorePaths store ts = .ok S ∧ ∀ q, q ∈ S ↔ store.printStorePath q ∈ ts := by
  induction ts with
  | nil => exact ⟨∅, rfl, fun q => by simp⟩
  | cons t ts ih =>
      obtain ⟨p, rfl, hp⟩ := h t List.mem_cons_self
      obtain ⟨S, hS, hmem⟩ := ih fun u hu => h u (List.mem_cons_of_mem _ hu)
      have hparse := (parse_cString_print store.toStoreDir p p).mpr ⟨hp, rfl⟩
      refine ⟨insert p S, ?_, fun q => ?_⟩
      · rw [readStorePaths, hparse, ok_bind, hS]
        rfl
      · rw [Finset.mem_insert, hmem, List.mem_cons]
        exact or_congr_left ⟨fun heq => by rw [heq], fun heq => store.printStorePath_inj heq⟩

/-- The referrers of a path. -/
theorem queryReferrers_printed {db' : Db} (hrows : ReadableRows store db) (h : ∀ t, db'.Valid t → db.Valid t)
    (path : StorePath) :
    ∃ S, queryReferrers store db' path = .ok S ∧ ∀ q, q ∈ S ↔ PathRefers store db' q path := by
  obtain ⟨S, hS, hmem⟩ := readStorePaths_printed
    fun t (ht : t ∈ db'.queryReferrers (store.printStorePath path)) =>
      hrows t (h t (Db.mem_queryReferrers.mp ht).valid.1)
  exact ⟨S, hS, fun q => (hmem q).trans Db.mem_queryReferrers⟩

theorem onVerified_invalidatePath (p : StorePath) (s : Verifying) :
    onVerified (invalidatePath store p) s =
      match s.db.invalidatePath (store.printStorePath p) with
      | .ok db => .ok () { s with db, pathInfoCache := s.pathInfoCache.erase p }
      | .error e => .error e s := by
  rw [onVerified, zoom, invalidatePath, bind_run, onDb]
  cases s.db.invalidatePath (store.printStorePath p) with
  | ok db => rfl
  | error e => rfl

variable (store) in
/-- What a visit does. -/
def Visits (db : Db) (E : StorePath → Bool) (open_ : Finset StorePath) (p : StorePath)
    (s s' : Verifying) : Prop :=
  VerifyInv store db E open_ s' ∧ p ∈ s'.done ∧ s.done ⊆ s'.done

/-- An existing path is entered. -/
theorem VerifyInv.enter {s : Verifying} (h : VerifyInv store db E open_ s) {p : StorePath}
    (hp : E p = true) :
    VerifyInv store db E open_ { s with
      done := insert p s.done, validPaths := insert p s.validPaths } := by
  have hkept : ¬ Doomed store db E p := by
    intro hdoomed
    rw [hdoomed.missing] at hp
    cases hp
  refine ⟨fun q => ?_, h.rows, h.refers, fun q => ?_, fun q hq => Finset.mem_insert_of_mem (h.open_done hq),
    fun q hq hout hdoomed => ?_⟩
  · rw [h.valid q]
    refine and_congr_right fun _ => not_congr ?_
    show _ ↔ q ∈ insert p s.done ∧ _
    rw [Finset.mem_insert]
    constructor
    · rintro ⟨hq, hrest⟩
      exact ⟨.inr hq, hrest⟩
    · rintro ⟨rfl | hq, hrest⟩
      · exact absurd hrest.2 hkept
      · exact ⟨hq, hrest⟩
  · show q ∈ insert p s.validPaths ↔ q ∈ insert p s.done ∧ _
    rw [Finset.mem_insert, Finset.mem_insert, h.validPaths q]
    constructor
    · rintro (rfl | ⟨hq, hex⟩)
      · exact ⟨.inl rfl, hp⟩
      · exact ⟨.inr hq, hex⟩
    · rintro ⟨rfl | hq, hex⟩
      · exact .inl rfl
      · exact .inr ⟨hq, hex⟩
  · rcases Finset.mem_insert.mp hq with rfl | hq
    · exact absurd hdoomed hkept
    · exact h.closed q hq hout hdoomed

/-- The visit of a missing path begins. -/
theorem VerifyInv.begin {s : Verifying} (h : VerifyInv store db E open_ s) {p : StorePath}
    (hp : E p = false) (hnew : p ∉ s.done) :
    VerifyInv store db E (insert p open_) { s with done := insert p s.done } := by
  have hsame : ∀ q, (q ∈ insert p s.done ∧ q ∉ insert p open_) ↔ q ∈ s.done ∧ q ∉ open_ := by
    intro q
    rw [Finset.mem_insert, Finset.mem_insert, not_or]
    constructor
    · rintro ⟨rfl | hq, hne, hout⟩
      · exact absurd rfl hne
      · exact ⟨hq, hout⟩
    · rintro ⟨hq, hout⟩
      exact ⟨.inr hq, fun heq => hnew (heq ▸ hq), hout⟩
  refine ⟨fun q => ?_, h.rows, h.refers, fun q => ?_, Finset.insert_subset_insert p h.open_done,
    fun q hq hout hdoomed => ?_⟩
  · rw [h.valid q]
    refine and_congr_right fun _ => not_congr ?_
    rw [← and_assoc, ← and_assoc]
    exact and_congr_left fun _ => (hsame q).symm
  · rw [h.validPaths q]
    show _ ↔ q ∈ insert p s.done ∧ _
    rw [Finset.mem_insert]
    constructor
    · rintro ⟨hq, hex⟩
      exact ⟨.inr hq, hex⟩
    · rintro ⟨rfl | hq, hex⟩
      · rw [hp] at hex
        cases hex
      · exact ⟨hq, hex⟩
  · obtain ⟨hq, hout⟩ := (hsame q).mp ⟨hq, hout⟩
    exact h.closed q hq hout hdoomed

/-- A missing path with an existing referrer stays. -/
theorem VerifyInv.keep {s : Verifying} {p : StorePath}
    (h : VerifyInv store db E (insert p open_) s) (hkept : ¬ Doomed store db E p) :
    VerifyInv store db E open_ { s with errors := true } := by
  have hout : ∀ q, q ∉ open_ → Doomed store db E q → q ∉ insert p open_ := by
    intro q hq hdoomed hmem
    rcases Finset.mem_insert.mp hmem with rfl | hmem
    · exact hkept hdoomed
    · exact hq hmem
  refine ⟨fun q => ?_, h.rows, h.refers, h.validPaths,
    fun q hq => h.open_done (Finset.mem_insert_of_mem hq),
    fun q hq hnot hdoomed => h.closed q hq (hout q hnot hdoomed) hdoomed⟩
  rw [h.valid q]
  refine and_congr_right fun _ => not_congr (and_congr_right fun _ => ?_)
  constructor
  · rintro ⟨hnot, hdoomed⟩
    exact ⟨fun hmem => hnot (Finset.mem_insert_of_mem hmem), hdoomed⟩
  · rintro ⟨hnot, hdoomed⟩
    exact ⟨hout q hnot hdoomed, hdoomed⟩

/-- A path is dropped, so nothing that is left refers to it. -/
theorem VerifyInv.drop {s s' : Verifying} {p : StorePath}
    (h : VerifyInv store db E (insert p open_) s) (hp : Doomed store db E p) (hnew : p ∉ open_)
    (hdb : s.db.invalidatePath (store.printStorePath p) = .ok s'.db) (hdone : s'.done = s.done)
    (hvalidPaths : s'.validPaths = s.validPaths) : VerifyInv store db E open_ s' := by
  have hpdone : p ∈ s.done := h.open_done (Finset.mem_insert_self _ _)
  have hsame : ∀ q, q ≠ p → (q ∉ open_ ↔ q ∉ insert p open_) := by
    intro q hq
    rw [Finset.mem_insert, not_or]
    exact ⟨fun hout => ⟨hq, hout⟩, fun hout => hout.2⟩
  refine ⟨fun q => ?_, fun t ht => h.rows t ((Db.valid_invalidate hdb t).mp ht).1, fun t u => ?_,
    fun q => ?_, fun q hq => ?_, fun q hq hout hdoomed r hrq => ?_⟩
  · rw [Db.valid_invalidate hdb, hdone]
    by_cases hq : q = p
    · subst hq
      constructor
      · rintro ⟨-, hne⟩
        exact absurd rfl hne
      · rintro ⟨-, hstays⟩
        exact absurd ⟨hpdone, hnew, hp⟩ hstays
    · rw [h.valid q, hsame q hq]
      constructor
      · rintro ⟨hrest, -⟩
        exact hrest
      · intro hrest
        exact ⟨hrest, fun heq => hq (store.printStorePath_inj heq)⟩
  · rw [Db.refers_invalidate hdb, h.refers, Db.valid_invalidate hdb, Db.valid_invalidate hdb]
    constructor
    · rintro ⟨⟨href, ht, hu⟩, hne, hne'⟩
      exact ⟨href, ⟨ht, hne⟩, hu, hne'⟩
    · rintro ⟨href, ⟨ht, hne⟩, hu, hne'⟩
      exact ⟨⟨href, ht, hu⟩, hne, hne'⟩
  · rw [hvalidPaths, hdone]
    exact h.validPaths q
  · rw [hdone]
    exact h.open_done (Finset.mem_insert_of_mem hq)
  · rw [hdone] at hq
    by_cases hqp : q = p
    · subst hqp
      by_cases hrq' : r = q
      · rw [hrq']
        exact hdoomed
      · -- the row of the referrer was gone, so it was one that had to go
        have hpvalid : s.db.Valid (store.printStorePath q) :=
          (h.valid q).mpr ⟨hdoomed.valid, fun hgone => hgone.2.1 (Finset.mem_insert_self _ _)⟩
        have hgone : ¬ s.db.Valid (store.printStorePath r) := by
          intro hr
          have href := (h.refers _ _).mpr ⟨hrq, hr, hpvalid⟩
          exact hrq' (store.printStorePath_inj (Db.unreferenced_of_invalidate hdb href))
        by_contra hstays
        exact hgone ((h.valid r).mpr ⟨hrq.valid.1, fun hdropped => hstays hdropped.2.2⟩)
    · exact h.closed q hq ((hsame q hqp).mp hout) hdoomed r hrq

/-- A path cannot be dropped if something that had to stay refers to it. -/
theorem VerifyInv.refused {s : Verifying} {p : StorePath} (hrows : ReadableRows store db)
    (h : VerifyInv store db E (insert p open_) s) (hp : Doomed store db E p)
    (hvisited : ∀ q, q ≠ p → PathRefers store s.db q p → q ∈ s.done ∧ q ∉ insert p open_)
    {e : Error} (hdb : s.db.invalidatePath (store.printStorePath p) = .error e) :
    ¬ Closed store db E := by
  intro hclosed
  have hfree : ∀ t, s.db.Refers t (store.printStorePath p) → t = store.printStorePath p := by
    intro t ht
    obtain ⟨q, rfl, -⟩ := hrows t (h.rows t ht.valid.1)
    by_contra hne
    obtain ⟨hdone, hout⟩ := hvisited q (fun heq => hne (heq ▸ rfl)) ht
    have hdoomed := hclosed p hp q ((h.refers _ _).mp ht).1
    exact ((h.valid q).mp ht.valid.1).2 ⟨hdone, hout, hdoomed⟩
  obtain ⟨db', hok⟩ := Db.invalidatePath_of_unreferenced hfree
  rw [hok] at hdb
  cases hdb

/-- The loop over the referrers. -/
theorem verifyReferrers_outcome {visit : StorePath → VerifyM Unit} {path : StorePath}
    {l : List StorePath} {start : Finset StorePath}
    (hvisit : ∀ q ∈ l, q ≠ path → ∀ s, VerifyInv store db E open_ s → start ⊆ s.done →
      Run s (visit q) (fun _ s' => Visits store db E open_ q s s')
        (fun _ _ => ¬ Closed store db E)) (canInvalidate : Bool) (s : Verifying)
    (h : VerifyInv store db E open_ s) (hstart : start ⊆ s.done) :
    Run s (verifyReferrers visit path l canInvalidate)
      (fun b s' => VerifyInv store db E open_ s' ∧ s.done ⊆ s'.done ∧
        (∀ q ∈ l, q ≠ path → q ∈ s'.done) ∧
        (b = true ↔ canInvalidate = true ∧ ∀ q ∈ l, q ≠ path → E q = false))
      (fun _ _ => ¬ Closed store db E) := by
  induction l generalizing canInvalidate s with
  | nil =>
      refine Spec.ret ?_
      rintro _ rfl
      exact ⟨h, fun _ hq => hq, fun q hq => absurd hq List.not_mem_nil,
        ⟨fun hb => ⟨hb, fun q hq => absurd hq List.not_mem_nil⟩, fun hb => hb.1⟩⟩
  | cons i rest ih =>
      have hrest := fun q hq => hvisit q (List.mem_cons_of_mem _ hq)
      unfold verifyReferrers
      -- the path itself, if it is among its referrers, is skipped
      refine Spec.cond (fun hne => ?_) fun heq => ?_
      · refine Spec.seq (hvisit i List.mem_cons_self hne s h hstart) fun _ => ?_
        refine Spec.at_state ?_
        rintro t ⟨hinv, hdone, hmono⟩
        refine Spec.seq (Q := fun a t' => a = t ∧ t' = t) (fun t' ht' => ⟨ht', ht'⟩) fun a => ?_
        refine Spec.at_state ?_
        rintro _ ⟨rfl, rfl⟩
        rename_i t
        refine (ih hrest _ t hinv (hstart.trans hmono)).weaken (fun _ ht => ht) ?_ (fun _ _ he => he)
        rintro b t' ⟨hinv', hmono', hall, hb⟩
        refine ⟨hinv', hmono.trans hmono', ?_, hb.trans ?_⟩
        · intro q hq hqne
          rcases List.mem_cons.mp hq with rfl | hq
          · exact hmono' hdone
          · exact hall q hq hqne
        · -- a referrer that is there forbids to invalidate
          have hi : i ∈ t.validPaths ↔ E i = true := by
            rw [hinv.validPaths i]
            exact ⟨fun hmem => hmem.2, fun hex => ⟨hdone, hex⟩⟩
          constructor
          · rintro ⟨hcan, hmissing⟩
            split at hcan
            · cases hcan
            · next hnot =>
                refine ⟨hcan, fun q hq hqne => ?_⟩
                rcases List.mem_cons.mp hq with rfl | hq
                · simpa using fun hex => hnot (hi.mpr hex)
                · exact hmissing q hq hqne
          · rintro ⟨hcan, hmissing⟩
            have hnot : i ∉ t.validPaths := by
              rw [hi, hmissing i List.mem_cons_self hne]
              nofun
            rw [if_neg hnot]
            exact ⟨hcan, fun q hq => hmissing q (List.mem_cons_of_mem _ hq)⟩
      · rw [not_not] at heq
        refine (ih hrest canInvalidate s h hstart).weaken (fun _ ht => ht) ?_ (fun _ _ he => he)
        rintro b t' ⟨hinv', hmono', hall, hb⟩
        have hskip : ∀ {P : StorePath → Prop}, (∀ q ∈ i :: rest, q ≠ path → P q) ↔
            ∀ q ∈ rest, q ≠ path → P q := by
          intro P
          refine ⟨fun hP q hq => hP q (List.mem_cons_of_mem _ hq), fun hP q hq hqne => ?_⟩
          rcases List.mem_cons.mp hq with rfl | hq
          · exact absurd heq hqne
          · exact hP q hq hqne
        exact ⟨hinv', hmono', hskip.mpr hall, by rw [hskip]; exact hb⟩

/-- A visit of a valid path.  The visits that have not ended are of paths that it
    reaches by references. -/
theorem verifyPath_outcome (hrows : ReadableRows store db) (hacyclic : Acyclic (PathRefers store db))
    {V : Finset StorePath} (hV : ∀ p, db.Valid (store.printStorePath p) → p ∈ V) (depth : Nat)
    (p : StorePath) (open_ : Finset StorePath) (s : Verifying)
    (hvalid : db.Valid (store.printStorePath p))
    (hbelow : ∀ x ∈ open_, TransGen (ProperEdge (PathRefers store db)) p x)
    (hdepth : (V \ s.done).card < depth) (h : VerifyInv store db E open_ s) :
    Run s (verifyPath store E depth p)
      (fun _ s' => Visits store db E open_ p s s') (fun _ _ => ¬ Closed store db E) := by
  induction depth generalizing p open_ s with
  | zero => exact absurd hdepth (Nat.not_lt_zero _)
  | succ depth ih =>
  have hnotOpen : p ∉ open_ := fun hmem => hacyclic p (hbelow p hmem)
  unfold verifyPath
  refine Spec.seq (Q := fun a t => a = s ∧ t = s) (fun t ht => ⟨ht, ht⟩) fun a => ?_
  refine Spec.at_state ?_
  rintro _ ⟨rfl, rfl⟩
  rename_i s
  refine Spec.cond (fun hdone => ?_) fun hnew => ?_
  · refine Spec.ret ?_
    rintro _ rfl
    exact ⟨h, hdone, fun _ hq => hq⟩
  refine Spec.seq (Q := fun _ t => t = { s with done := insert p s.done }) ?_ fun _ => ?_
  · rintro _ rfl
    rfl
  refine Spec.cond (fun hmissing => ?_) fun hexists => ?_
  · obtain ⟨s₁, hs₁⟩ : ∃ s₁ : Verifying, s₁ = { s with done := insert p s.done } := ⟨_, rfl⟩
    have h₁ : VerifyInv store db E (insert p open_) s₁ := by
      rw [hs₁]
      exact h.begin hmissing hnew
    have hdone₁ : s₁.done = insert p s.done := by rw [hs₁]
    rw [← hs₁]
    obtain ⟨R, hR, hmem⟩ := queryReferrers_printed hrows h₁.rows p
    have hquery : Run s₁ (onVerified (onDb fun db => (queryReferrers store db p).map (·, db)))
        (fun a t => a = R ∧ t = s₁) (fun _ _ => ¬ Closed store db E) := by
      rintro _ rfl
      rename_i s₁
      rw [onVerified, zoom, onDb, hR]
      exact ⟨rfl, rfl⟩
    refine Spec.seq hquery fun referrers => ?_
    refine Spec.at_state ?_
    rintro t ⟨hreferrers, ht⟩
    rw [hreferrers, ht]
    have hpvalid : s₁.db.Valid (store.printStorePath p) :=
      (h₁.valid p).mpr ⟨hvalid, fun hgone => hgone.2.1 (Finset.mem_insert_self _ _)⟩
    -- the referrers are above everything that is open
    have habove : ∀ q, q ≠ p → PathRefers store db q p → ∀ x ∈ insert p open_,
        TransGen (ProperEdge (PathRefers store db)) q x := by
      intro q hne hqp x hx
      rcases Finset.mem_insert.mp hx with rfl | hx
      · exact TransGen.single ⟨hqp, hne⟩
      · exact TransGen.head ⟨hqp, hne⟩ (hbelow x hx)
    have hcard : (V \ s₁.done).card < depth := by
      have hlt : (V \ s₁.done).card < (V \ s.done).card := by
        refine Finset.card_lt_card ⟨fun x hx => ?_, fun hsub => ?_⟩
        · rw [hdone₁] at hx
          obtain ⟨hxV, hx⟩ := Finset.mem_sdiff.mp hx
          exact Finset.mem_sdiff.mpr ⟨hxV, fun hxs => hx (Finset.mem_insert_of_mem hxs)⟩
        · have hp := hsub (Finset.mem_sdiff.mpr ⟨hV p hvalid, hnew⟩)
          rw [hdone₁] at hp
          exact (Finset.mem_sdiff.mp hp).2 (Finset.mem_insert_self _ _)
      omega
    have hvisit : ∀ q ∈ inOrder R, q ≠ p → ∀ t, VerifyInv store db E (insert p open_) t →
        s₁.done ⊆ t.done → Run t (verifyPath store E depth q)
          (fun _ t' => Visits store db E (insert p open_) q t t')
          (fun _ _ => ¬ Closed store db E) := by
      intro q hq hne t ht hstart
      have hqp := ((h₁.refers _ _).mp ((hmem q).mp (mem_inOrder.mp hq))).1
      refine ih q (insert p open_) t hqp.valid.1 (habove q hne hqp) ?_ ht
      exact Nat.lt_of_le_of_lt (Finset.card_le_card (Finset.sdiff_subset_sdiff le_rfl hstart)) hcard
    refine Spec.seq (verifyReferrers_outcome hvisit true s₁ h₁ fun _ hq => hq) fun b => ?_
    refine Spec.at_state ?_
    rintro t ⟨ht, hmono, hall, hb⟩
    have hpt : p ∈ t.done := hmono (h₁.open_done (Finset.mem_insert_self _ _))
    have hs : s.done ⊆ t.done := by
      refine fun x hx => hmono ?_
      rw [hdone₁]
      exact Finset.mem_insert_of_mem hx
    have hdoomed : b = true ↔ Doomed store db E p := by
      rw [hb]
      constructor
      · rintro ⟨-, hnone⟩
        refine ⟨hvalid, hmissing, fun q hqp => ?_⟩
        by_cases hq : q = p
        · rw [hq]
          exact hmissing
        -- an existing referrer is still there
        by_contra hex
        have hqvalid : s₁.db.Valid (store.printStorePath q) :=
          (h₁.valid q).mpr ⟨hqp.valid.1, fun hgone => hex hgone.2.2.missing⟩
        have hqR := (hmem q).mpr ((h₁.refers _ _).mpr ⟨hqp, hqvalid, hpvalid⟩)
        exact hex (hnone q (mem_inOrder.mpr hqR) hq)
      · intro hdoomed
        refine ⟨rfl, fun q hq _ => hdoomed.referrers q ?_⟩
        exact ((h₁.refers _ _).mp ((hmem q).mp (mem_inOrder.mp hq))).1
    refine Spec.cond (fun hcan => ?_) fun hcannot => ?_
    · have hp := hdoomed.mp hcan
      have hvisited : ∀ q, q ≠ p → PathRefers store t.db q p → q ∈ t.done ∧ q ∉ insert p open_ := by
        intro q hne hqp
        have hqp₀ := ((ht.refers _ _).mp hqp).1
        have hout : q ∉ insert p open_ := fun hopen => hacyclic q (habove q hne hqp₀ q hopen)
        refine ⟨?_, hout⟩
        by_contra hnot
        have hqvalid : s₁.db.Valid (store.printStorePath q) :=
          (h₁.valid q).mpr ⟨hqp₀.valid.1, fun hgone => hnot (hmono hgone.1)⟩
        have hqR := (hmem q).mpr ((h₁.refers _ _).mpr ⟨hqp₀, hqvalid, hpvalid⟩)
        exact hnot (hall q (mem_inOrder.mpr hqR) hne)
      rintro _ rfl
      rename_i t
      rw [onVerified_invalidatePath]
      cases hdb : t.db.invalidatePath (store.printStorePath p) with
      | error e => exact ht.refused hrows hp hvisited hdb
      | ok db' => exact ⟨ht.drop hp hnotOpen hdb rfl rfl, hpt, hs⟩
    · rintro _ rfl
      rename_i t
      exact ⟨ht.keep fun hp => hcannot (hdoomed.mpr hp), hpt, hs⟩
  · rintro _ rfl
    rename_i s
    exact ⟨h.enter (by simpa using hexists), Finset.mem_insert_self _ _,
      fun _ hq => Finset.mem_insert_of_mem hq⟩

-- ============================================================================
-- The whole database
-- ============================================================================

variable (store) in
/-- No remaining row refers to a deleted one, no path that exists is deleted, and
    a missing path is deleted if nothing that exists is reached from it by
    following referrers. -/
structure Consistent (E : StorePath → Bool) (db db' : Db) : Prop where
  references : ∀ t u, db.Refers t u → db'.Valid t → db'.Valid u
  existing : ∀ p, E p = true → db.Valid (store.printStorePath p) →
    db'.Valid (store.printStorePath p)
  missing : ∀ p, db.Valid (store.printStorePath p) →
    (∀ q, ReflTransGen (PathRefers store db) q p → E q = false) →
    ¬ db'.Valid (store.printStorePath p)

/-- Nothing has been visited. -/
theorem verifyInv_start (s : LocalStore) :
    VerifyInv store s.db E ∅ { s with done := ∅, validPaths := ∅, errors := false } where
  valid p := ⟨fun h => ⟨h, fun hgone => absurd hgone.1 (Finset.notMem_empty p)⟩, fun h => h.1⟩
  rows _ h := h
  refers _ _ := ⟨fun h => ⟨h, h.valid⟩, fun h => h.1⟩
  validPaths p := ⟨fun h => absurd h (Finset.notMem_empty p), fun h => absurd h.1 (Finset.notMem_empty p)⟩
  open_done := Finset.empty_subset _
  closed p h := absurd h (Finset.notMem_empty p)

/-- When all valid paths have been visited. -/
theorem VerifyInv.consistent {s : Verifying} (hrows : ReadableRows store db)
    (h : VerifyInv store db E ∅ s)
    (hall : ∀ p, db.Valid (store.printStorePath p) → p ∈ s.done) :
    Consistent store E db s.db ∧ Closed store db E := by
  have hvalid : ∀ p, s.db.Valid (store.printStorePath p) ↔
      db.Valid (store.printStorePath p) ∧ ¬ Doomed store db E p := by
    intro p
    rw [h.valid p]
    refine and_congr_right fun hp => not_congr ⟨fun hgone => hgone.2.2, fun hdoomed => ?_⟩
    exact ⟨hall p hp, Finset.notMem_empty p, hdoomed⟩
  have hclosed : Closed store db E := fun p hp =>
    h.closed p (hall p hp.valid) (Finset.notMem_empty p) hp
  refine ⟨⟨?_, ?_, ?_⟩, hclosed⟩
  · intro _ _ href ht
    obtain ⟨p, rfl, -⟩ := hrows _ href.valid.1
    obtain ⟨q, rfl, -⟩ := hrows _ href.valid.2
    refine (hvalid q).mpr ⟨href.valid.2, fun hdoomed => ?_⟩
    exact ((hvalid p).mp ht).2 (hclosed q hdoomed p href)
  · intro p hex hp
    refine (hvalid p).mpr ⟨hp, fun hdoomed => ?_⟩
    rw [hdoomed.missing] at hex
    cases hex
  · intro p hp hnone hstays
    refine ((hvalid p).mp hstays).2 ⟨hp, hnone p ReflTransGen.refl, fun q hqp => ?_⟩
    exact hnone q (ReflTransGen.single hqp)

/-- All paths are read, or the first one that cannot be read is an exception. -/
theorem queryAllValidPaths_outcome (hprinted : ∀ t, db.Valid t → ∃ p, t = store.printStorePath p) :
    (ReadableRows store db → ∃ V, readStorePaths store (db.validPaths.map fun r => r.path) = .ok V ∧
      ∀ p, p ∈ V ↔ db.Valid (store.printStorePath p)) ∧
    ∀ V, readStorePaths store (db.validPaths.map fun r => r.path) = .ok V → ReadableRows store db := by
  have hcolumn : ∀ t, t ∈ db.validPaths.map (fun r => r.path) ↔ db.Valid t := fun t => List.mem_map
  constructor
  · intro hrows
    obtain ⟨V, hV, hmem⟩ := readStorePaths_printed fun t ht => hrows t ((hcolumn t).mp ht)
    exact ⟨V, hV, fun p => (hmem p).trans (hcolumn _)⟩
  · intro V hV t ht
    obtain ⟨p, rfl⟩ := hprinted t ht
    obtain ⟨q, -, hparse⟩ := (readStorePaths_eq_ok.mp hV).1 _ ((hcolumn _).mpr ht)
    exact ⟨p, rfl, ((parse_cString_print store.toStoreDir p q).mp hparse).1⟩

/-- `verifyAllValidPaths` returns and keeps the database consistent if, and only
    if, all paths of the database can be read back and each missing path that an
    existing path reaches by references is a direct reference of one. -/
theorem verifyAllValidPaths_consistent_iff (store : StoreDirConfig) (s : LocalStore)
    (listing : List Bytes) (hprinted : ∀ t, s.db.Valid t → ∃ p, t = store.printStorePath p)
    (hacyclic : Acyclic s.db.Refers) :
    (∃ r s', verifyAllValidPaths store listing s = .ok r s' ∧
      Consistent store (existsInStoreDir listing) s.db s'.db) ↔
      ReadableRows store s.db ∧ DirectlyKept store s.db (existsInStoreDir listing) := by
  rw [directlyKept_iff]
  obtain ⟨hread, hreadable⟩ := queryAllValidPaths_outcome hprinted
  have hpaths : Acyclic (PathRefers store s.db) :=
    Acyclic.comap (printStorePath_injective store) (fun _ _ h => h) hacyclic
  -- a row that cannot be read back makes the very first query throw
  by_cases hrows : ReadableRows store s.db
  · obtain ⟨V, hV, hmem⟩ := hread hrows
    -- the loop over the valid paths keeps the invariant, with no path open
    have hloop : Run { s with done := ∅, validPaths := ∅, errors := false }
        ((inOrder V).forM (verifyPath store (existsInStoreDir listing) (V.card + 1)))
        (fun _ t => VerifyInv store s.db (existsInStoreDir listing) ∅ t ∧ ∀ p ∈ inOrder V, p ∈ t.done)
        (fun _ _ => ¬ Closed store s.db (existsInStoreDir listing)) := by
      refine (Spec.loop (I := fun front t => VerifyInv store s.db (existsInStoreDir listing) ∅ t ∧
        ∀ p ∈ front, p ∈ t.done) (inOrder V) fun front p rest hl => ?_).weaken ?_
        (fun _ _ h => h) fun _ _ h => h
      · refine Spec.at_state ?_
        rintro t ⟨hinv, hfront⟩
        have hp : p ∈ V := mem_inOrder.mp (hl ▸ List.mem_append_right _ List.mem_cons_self)
        have hdepth : (V \ t.done).card < V.card + 1 :=
          Nat.lt_succ_of_le (Finset.card_le_card Finset.sdiff_subset)
        refine (verifyPath_outcome hrows hpaths (fun q hq => (hmem q).mpr hq) _ p ∅ t ((hmem p).mp hp)
          (fun x hx => absurd hx (Finset.notMem_empty x)) hdepth hinv).weaken (fun _ h => h) ?_
          (fun _ _ h => h)
        rintro _ t' ⟨hinv', hdone, hmono⟩
        refine ⟨hinv', fun q hq => ?_⟩
        rcases List.mem_append.mp hq with hq | hq
        · exact hmono (hfront q hq)
        · rw [List.mem_singleton.mp hq]
          exact hdone
      · rintro _ rfl
        exact ⟨verifyInv_start s, fun p hp => absurd hp List.not_mem_nil⟩
    have hrun : verifyAllValidPaths store listing s = verifyPaths store listing V s := by
      rw [verifyAllValidPaths, bind_run, queryAllValidPaths, onDb, hV]
      rfl
    have hend := hloop _ rfl
    rw [hrun, verifyPaths]
    cases hcase : ((inOrder V).forM (verifyPath store (existsInStoreDir listing) (V.card + 1)))
        { s with done := ∅, validPaths := ∅, errors := false } with
    | ok u t =>
        rw [hcase] at hend
        obtain ⟨hconsistent, hclosed⟩ := hend.1.consistent hrows fun p hp =>
          hend.2 p (mem_inOrder.mpr ((hmem p).mpr hp))
        exact ⟨fun _ => ⟨hrows, hclosed⟩, fun _ => ⟨_, _, rfl, hconsistent⟩⟩
    | error e t =>
        rw [hcase] at hend
        constructor
        · rintro ⟨r, s', hok, -⟩
          cases hok
        · rintro ⟨-, hclosed⟩
          exact absurd hclosed hend
  · constructor
    · rintro ⟨r, s', hok, -⟩
      obtain ⟨V, t, hquery, -⟩ := Effect.bind_eq_ok.mp hok
      rw [queryAllValidPaths, onDb] at hquery
      cases hV : readStorePaths store (s.db.validPaths.map fun r => r.path) with
      | ok V => exact absurd (hreadable V hV) hrows
      | error e =>
          rw [hV] at hquery
          cases hquery
    · rintro ⟨hrows', -⟩
      exact absurd hrows' hrows

end LocalStore

namespace LocalStore

open Relation

namespace Sample

/-- A third store path. -/
def pathC : StorePath := ⟨ascii "00000000000000000000000000000000-c", by decide +kernel⟩

/-- The row of a path. -/
def row (path : StorePath) (id : Nat) : ValidPathRow := { columns store 1 (info path ∅) with id }

/-- The third path refers to the second, which refers to the first. -/
def chain : Db where
  validPaths := [row pathA 1, row pathB 2, row pathC 3]
  refs := {(2, 1), (3, 2)}
  derivationOutputs := []
  lastId := 3
  id_le := by decide +kernel
  ids_nodup := by decide +kernel
  paths_nodup := by decide +kernel
  refs_foreign := by decide +kernel
  outputs_foreign := by decide +kernel

/-- A store with that database. -/
def chained : LocalStore := { fresh 10 with db := chain }

theorem chained_rows (t : Bytes) (h : chained.db.Valid t) :
    ∃ p, t = store.printStorePath p ∧ Readable p := by
  obtain ⟨r, hr, rfl⟩ := h
  rcases List.mem_cons.mp hr with rfl | hr
  · exact ⟨pathA, rfl, by decide +kernel⟩
  rcases List.mem_cons.mp hr with rfl | hr
  · exact ⟨pathB, rfl, by decide +kernel⟩
  rw [List.mem_singleton.mp hr]
  exact ⟨pathC, rfl, by decide +kernel⟩

theorem chained_refers {t u : Bytes} (h : chained.db.Refers t u) :
    (t = store.printStorePath pathB ∧ u = store.printStorePath pathA) ∨
      (t = store.printStorePath pathC ∧ u = store.printStorePath pathB) := by
  obtain ⟨r, hr, r', hr', rfl, rfl, hmem⟩ := h
  have hpairs : ∀ r ∈ chain.validPaths, ∀ r' ∈ chain.validPaths, (r.id, r'.id) ∈ chain.refs →
      (r = row pathB 2 ∧ r' = row pathA 1) ∨ (r = row pathC 3 ∧ r' = row pathB 2) := by
    decide +kernel
  rcases hpairs r hr r' hr' hmem with ⟨rfl, rfl⟩ | ⟨rfl, rfl⟩
  · exact .inl ⟨rfl, rfl⟩
  · exact .inr ⟨rfl, rfl⟩

theorem chained_acyclic : Acyclic chained.db.Refers := by
  refine Acyclic.of_rank (fun t => ((chain.queryPathInfo t).map ValidPathRow.id).getD 0) ?_
  rintro t u href -
  rcases chained_refers href with ⟨rfl, rfl⟩ | ⟨rfl, rfl⟩
  · decide +kernel
  · decide +kernel

end Sample

/-- The second path exists, the third one is dropped. -/
theorem verifyAllValidPaths_consistent_chain :
    ∃ r s', verifyAllValidPaths Sample.store [Sample.pathB.baseName] Sample.chained = .ok r s' ∧
      Consistent Sample.store (existsInStoreDir [Sample.pathB.baseName]) Sample.chained.db s'.db := by
  refine (verifyAllValidPaths_consistent_iff Sample.store Sample.chained [Sample.pathB.baseName]
    (fun t ht => (Sample.chained_rows t ht).imp fun _ h => h.1) Sample.chained_acyclic).mpr
    ⟨Sample.chained_rows, ?_⟩
  rintro p hmissing ⟨q, hq, hqp⟩
  have hlast : ∃ r, PathRefers Sample.store Sample.chained.db r p := by
    cases hqp with
    | single h => exact ⟨q, h⟩
    | tail _ h => exact ⟨_, h⟩
  obtain ⟨r, hr⟩ := hlast
  rcases Sample.chained_refers hr with ⟨hr', hp⟩ | ⟨hr', hp⟩
  · cases printStorePath_injective Sample.store hr'
    exact ⟨Sample.pathB, by decide +kernel, hr⟩
  · -- the second path is not missing
    cases printStorePath_injective Sample.store hp
    exact absurd hmissing (by decide +kernel)

/-- With the third path alone, the first one is dropped while the second one,
    which is kept, refers to it. -/
theorem verifyAllValidPaths_foreign_key :
    (∀ t, Sample.chained.db.Valid t → ∃ p, t = Sample.store.printStorePath p) ∧
    Acyclic Sample.chained.db.Refers ∧
    ∃ s', verifyAllValidPaths Sample.store [Sample.pathC.baseName] Sample.chained
      = .error (.error "FOREIGN KEY constraint failed") s' := by
  refine ⟨fun t ht => (Sample.chained_rows t ht).imp fun _ h => h.1, Sample.chained_acyclic, ?_⟩
  have herror : (match verifyAllValidPaths Sample.store [Sample.pathC.baseName] Sample.chained with
    | .ok _ _ => none
    | .error e _ => some e) = some (.error "FOREIGN KEY constraint failed") := by decide +kernel
  cases hrun : verifyAllValidPaths Sample.store [Sample.pathC.baseName] Sample.chained with
  | ok r s' =>
      rw [hrun] at herror
      cases herror
  | error e s' =>
      rw [hrun] at herror
      exact ⟨s', by rw [Option.some.inj herror]⟩

end LocalStore
end NixStore
