/-
  NixStore.Store.Db

  The tables of the store database (`libstore/schema.sql`) and the statements
  that `libstore/local-store.cc` prepares for them.

  The constraints of the schema are fields of `Db`: a statement that would
  break one of them is an SQLite error and leaves the database as it is.  Paths
  are texts here, as they are in the table; `Db.Refers` reads the `Refs` table
  as a relation between these texts.
-/

import NixStore.Lib.SortedMap
import NixStore.Lib.Acyclic
import NixStore.Util.Serialise
import Mathlib.Data.Finset.Basic
import Mathlib.Data.Finset.Filter

namespace NixStore

open Wire

/-- The columns of `ValidPaths` besides the primary key. -/
structure PathColumns where
  path : Bytes
  hash : Bytes
  registrationTime : Int
  deriver : Option Bytes
  narSize : Option UInt64
  ultimate : Option Int
  sigs : Option Bytes
  ca : Option Bytes
deriving DecidableEq

/-- A row of `ValidPaths`. -/
structure ValidPathRow extends PathColumns where
  id : Nat
deriving DecidableEq

/-- A row of `DerivationOutputs`. -/
structure DerivationOutputRow where
  drv : Nat
  id : Bytes
  path : Bytes
deriving DecidableEq

/-- The database.  `lastId` is what `autoincrement` remembers. -/
structure Db where
  validPaths : List ValidPathRow
  refs : Finset (Nat × Nat)
  derivationOutputs : List DerivationOutputRow
  lastId : Nat
  id_le : ∀ r ∈ validPaths, r.id ≤ lastId
  ids_nodup : (validPaths.map ValidPathRow.id).Nodup
  paths_nodup : (validPaths.map fun r => r.path).Nodup
  refs_foreign : ∀ e ∈ refs, (∃ r ∈ validPaths, r.id = e.1) ∧ ∃ r ∈ validPaths, r.id = e.2
  outputs_foreign : ∀ d ∈ derivationOutputs, ∃ r ∈ validPaths, r.id = d.drv

namespace Db

/-- The database after the schema has been set up. -/
def empty : Db where
  validPaths := []
  refs := ∅
  derivationOutputs := []
  lastId := 0
  id_le := by simp
  ids_nodup := List.nodup_nil
  paths_nodup := List.nodup_nil
  refs_foreign := by simp
  outputs_foreign := by simp

/-! ## Queries -/

/-- `QueryPathInfo`. -/
def queryPathInfo (db : Db) (path : Bytes) : Option ValidPathRow :=
  db.validPaths.find? fun r => r.path = path

/-- `QueryReferences`. -/
def queryReferences (db : Db) (referrer : Nat) : List Bytes :=
  (db.validPaths.filter fun r => (referrer, r.id) ∈ db.refs).map fun r => r.path

/-- `QueryReferrers`. -/
def queryReferrers (db : Db) (path : Bytes) : List Bytes :=
  match db.queryPathInfo path with
  | none => []
  | some row => (db.validPaths.filter fun r => (r.id, row.id) ∈ db.refs).map fun r => r.path

/-- `QueryValidDerivers`. -/
def queryValidDerivers (db : Db) (path : Bytes) : List Bytes :=
  (db.validPaths.filter fun v =>
    ∃ d ∈ db.derivationOutputs, d.path = path ∧ d.drv = v.id).map fun v => v.path

/-! ## Updates -/

/-- `RegisterValidPath`: a row with a new id. -/
def registerValidPath (db : Db) (cols : PathColumns) : Except Error Db :=
  if h : ∃ r ∈ db.validPaths, r.path = cols.path then
    .error (.error "UNIQUE constraint failed: ValidPaths.path")
  else
    .ok
      { db with
        validPaths := db.validPaths ++ [{ cols with id := db.lastId + 1 }]
        lastId := db.lastId + 1
        id_le := by
          intro r hr
          rcases List.mem_append.mp hr with hr | hr
          · exact (db.id_le r hr).trans (Nat.le_succ _)
          · rw [List.mem_singleton.mp hr]
        ids_nodup := by
          rw [List.map_append, List.map_singleton, ← List.concat_eq_append, List.nodup_concat]
          refine ⟨?_, db.ids_nodup⟩
          intro hmem
          obtain ⟨r, hr, hid⟩ := List.mem_map.mp hmem
          have hle := db.id_le r hr
          rw [hid] at hle
          exact Nat.not_succ_le_self _ hle
        paths_nodup := by
          rw [List.map_append, List.map_singleton, ← List.concat_eq_append, List.nodup_concat]
          refine ⟨?_, db.paths_nodup⟩
          intro hmem
          obtain ⟨r, hr, hpath⟩ := List.mem_map.mp hmem
          exact h ⟨r, hr, hpath⟩
        refs_foreign := by
          intro e he
          obtain ⟨⟨r, hr, hid⟩, r', hr', hid'⟩ := db.refs_foreign e he
          exact ⟨⟨r, List.mem_append_left _ hr, hid⟩, r', List.mem_append_left _ hr', hid'⟩
        outputs_foreign := by
          intro d hd
          obtain ⟨r, hr, hid⟩ := db.outputs_foreign d hd
          exact ⟨r, List.mem_append_left _ hr, hid⟩ }

/-- The columns that `UpdatePathInfo` sets, in one row. -/
def updateRow (path : Bytes) (narSize : Option UInt64) (hash : Bytes) (ultimate : Option Int)
    (sigs ca : Option Bytes) (r : ValidPathRow) : ValidPathRow :=
  if r.path = path then { r with narSize, hash, ultimate, sigs, ca } else r

theorem updateRow_id (path : Bytes) (narSize : Option UInt64) (hash : Bytes)
    (ultimate : Option Int) (sigs ca : Option Bytes) (r : ValidPathRow) :
    (updateRow path narSize hash ultimate sigs ca r).id = r.id := by
  unfold updateRow
  split <;> rfl

theorem updateRow_path (path : Bytes) (narSize : Option UInt64) (hash : Bytes)
    (ultimate : Option Int) (sigs ca : Option Bytes) (r : ValidPathRow) :
    (updateRow path narSize hash ultimate sigs ca r).path = r.path := by
  unfold updateRow
  split <;> rfl

theorem exists_map_id {f : ValidPathRow → ValidPathRow} (hf : ∀ r, (f r).id = r.id)
    {rows : List ValidPathRow} {id : Nat} (h : ∃ r ∈ rows, r.id = id) :
    ∃ r ∈ rows.map f, r.id = id := by
  obtain ⟨r, hr, hid⟩ := h
  exact ⟨f r, List.mem_map_of_mem hr, (hf r).trans hid⟩

/-- `UpdatePathInfo`: neither the deriver nor the references are touched. -/
def updatePathInfo (db : Db) (path : Bytes) (narSize : Option UInt64) (hash : Bytes)
    (ultimate : Option Int) (sigs ca : Option Bytes) : Db :=
  { db with
    validPaths := db.validPaths.map (updateRow path narSize hash ultimate sigs ca)
    id_le := by
      intro r hr
      obtain ⟨r', hr', rfl⟩ := List.mem_map.mp hr
      rw [updateRow_id]
      exact db.id_le r' hr'
    ids_nodup := by
      rw [List.map_map, Function.comp_def]
      simp only [updateRow_id]
      exact db.ids_nodup
    paths_nodup := by
      rw [List.map_map, Function.comp_def]
      simp only [updateRow_path]
      exact db.paths_nodup
    refs_foreign := by
      intro e he
      obtain ⟨h, h'⟩ := db.refs_foreign e he
      exact ⟨exists_map_id (updateRow_id path narSize hash ultimate sigs ca) h,
        exists_map_id (updateRow_id path narSize hash ultimate sigs ca) h'⟩
    outputs_foreign := by
      intro d hd
      exact exists_map_id (updateRow_id path narSize hash ultimate sigs ca)
        (db.outputs_foreign d hd) }

/-- `AddReference`. -/
def addReference (db : Db) (referrer reference : Nat) : Except Error Db :=
  if h : (∃ r ∈ db.validPaths, r.id = referrer) ∧ ∃ r ∈ db.validPaths, r.id = reference then
    .ok
      { db with
        refs := insert (referrer, reference) db.refs
        refs_foreign := by
          intro e he
          rcases Finset.mem_insert.mp he with rfl | he
          · exact h
          · exact db.refs_foreign e he }
  else .error (.error "FOREIGN KEY constraint failed")

/-- The rows of `ValidPaths` other than one. -/
def without (db : Db) (id : Nat) : List ValidPathRow := db.validPaths.filter fun r => r.id ≠ id

theorem mem_without {db : Db} {id : Nat} {r : ValidPathRow} :
    r ∈ db.without id ↔ r ∈ db.validPaths ∧ r.id ≠ id := by
  simp [without]

/-- `InvalidatePath`.  The trigger `DeleteSelfRefs` runs first; rows of `Refs`
    in which the path is the referrer and rows of `DerivationOutputs` go with
    it, and any other reference to it keeps it. -/
def invalidatePath (db : Db) (path : Bytes) : Except Error Db :=
  match db.queryPathInfo path with
  | none => .ok db
  | some row =>
      if h : ∃ e ∈ db.refs, e.2 = row.id ∧ e.1 ≠ row.id then
        .error (.error "FOREIGN KEY constraint failed")
      else
        .ok
          { db with
            validPaths := db.without row.id
            refs := db.refs.filter fun e => e.1 ≠ row.id
            derivationOutputs := db.derivationOutputs.filter fun d => d.drv ≠ row.id
            id_le := fun r hr => db.id_le r (mem_without.mp hr).1
            ids_nodup := db.ids_nodup.sublist (List.filter_sublist.map _)
            paths_nodup := db.paths_nodup.sublist (List.filter_sublist.map _)
            refs_foreign := by
              intro e he
              obtain ⟨he, hne⟩ := Finset.mem_filter.mp he
              have hne' : e.2 ≠ row.id := fun heq => h ⟨e, he, heq, hne⟩
              obtain ⟨⟨r, hr, hid⟩, r', hr', hid'⟩ := db.refs_foreign e he
              exact ⟨⟨r, mem_without.mpr ⟨hr, hid ▸ hne⟩, hid⟩,
                r', mem_without.mpr ⟨hr', hid' ▸ hne'⟩, hid'⟩
            outputs_foreign := by
              intro d hd
              obtain ⟨hd, hne⟩ := List.mem_filter.mp hd
              obtain ⟨r, hr, hid⟩ := db.outputs_foreign d hd
              have hne' : d.drv ≠ row.id := by simpa using hne
              exact ⟨r, mem_without.mpr ⟨hr, hid ▸ hne'⟩, hid⟩ }

/-! ## Paths and references -/

/-- The path is valid. -/
def Valid (db : Db) (path : Bytes) : Prop := ∃ r ∈ db.validPaths, r.path = path

/-- The first path refers to the second. -/
def Refers (db : Db) (path reference : Bytes) : Prop :=
  ∃ r ∈ db.validPaths, ∃ r' ∈ db.validPaths,
    r.path = path ∧ r'.path = reference ∧ (r.id, r'.id) ∈ db.refs

instance (db : Db) (path : Bytes) : Decidable (db.Valid path) := by
  unfold Valid
  infer_instance

instance (db : Db) (path reference : Bytes) : Decidable (db.Refers path reference) := by
  unfold Refers
  infer_instance

theorem queryPathInfo_eq_some {db : Db} {path : Bytes} {r : ValidPathRow} :
    db.queryPathInfo path = some r ↔ r ∈ db.validPaths ∧ r.path = path :=
  SortedMap.find?_key db.paths_nodup

theorem queryPathInfo_eq_none {db : Db} {path : Bytes} :
    db.queryPathInfo path = none ↔ ¬ db.Valid path := by
  simp [queryPathInfo, Valid]

theorem valid_of_query {db : Db} {path : Bytes} {r : ValidPathRow}
    (h : db.queryPathInfo path = some r) : db.Valid path :=
  ⟨r, queryPathInfo_eq_some.mp h⟩

theorem Valid.query {db : Db} {path : Bytes} (h : db.Valid path) :
    ∃ r, db.queryPathInfo path = some r := by
  obtain ⟨r, hr⟩ := h
  exact ⟨r, queryPathInfo_eq_some.mpr hr⟩

theorem isSome_queryPathInfo {db : Db} {path : Bytes} :
    (db.queryPathInfo path).isSome = true ↔ db.Valid path := by
  rw [Option.isSome_iff_exists]
  exact ⟨fun ⟨_, h⟩ => valid_of_query h, Valid.query⟩

theorem row_of_id {db : Db} {r r' : ValidPathRow} (hr : r ∈ db.validPaths)
    (hr' : r' ∈ db.validPaths) (h : r.id = r'.id) : r = r' :=
  List.inj_on_of_nodup_map db.ids_nodup hr hr' h

theorem row_of_path {db : Db} {r r' : ValidPathRow} (hr : r ∈ db.validPaths)
    (hr' : r' ∈ db.validPaths) (h : r.path = r'.path) : r = r' :=
  List.inj_on_of_nodup_map db.paths_nodup hr hr' h

theorem Refers.valid {db : Db} {t u : Bytes} (h : db.Refers t u) : db.Valid t ∧ db.Valid u := by
  obtain ⟨r, hr, r', hr', hpath, hpath', -⟩ := h
  exact ⟨⟨r, hr, hpath⟩, r', hr', hpath'⟩

/-- The relation between two rows that are there. -/
theorem refers_rows {db : Db} {r r' : ValidPathRow} (hr : r ∈ db.validPaths)
    (hr' : r' ∈ db.validPaths) : db.Refers r.path r'.path ↔ (r.id, r'.id) ∈ db.refs := by
  constructor
  · rintro ⟨s, hs, s', hs', hpath, hpath', hmem⟩
    rwa [row_of_path hs hr hpath, row_of_path hs' hr' hpath'] at hmem
  · intro hmem
    exact ⟨r, hr, r', hr', rfl, rfl, hmem⟩

theorem mem_queryReferences {db : Db} {r : ValidPathRow} (hr : r ∈ db.validPaths) {u : Bytes} :
    u ∈ db.queryReferences r.id ↔ db.Refers r.path u := by
  unfold queryReferences
  rw [List.mem_map]
  constructor
  · rintro ⟨r', hr', rfl⟩
    obtain ⟨hr', hmem⟩ := List.mem_filter.mp hr'
    exact (refers_rows hr hr').mpr (by simpa using hmem)
  · rintro ⟨s, hs, s', hs', hpath, rfl, hmem⟩
    rw [row_of_path hs hr hpath] at hmem
    exact ⟨s', List.mem_filter.mpr ⟨hs', by simpa using hmem⟩, rfl⟩

theorem mem_queryReferrers {db : Db} {t u : Bytes} :
    t ∈ db.queryReferrers u ↔ db.Refers t u := by
  unfold queryReferrers
  cases hquery : db.queryPathInfo u with
  | none =>
      refine ⟨fun h => absurd h List.not_mem_nil, fun h => ?_⟩
      exact absurd h.valid.2 (queryPathInfo_eq_none.mp hquery)
  | some row =>
      obtain ⟨hrow, rfl⟩ := queryPathInfo_eq_some.mp hquery
      rw [List.mem_map]
      constructor
      · rintro ⟨r, hr, rfl⟩
        obtain ⟨hr, hmem⟩ := List.mem_filter.mp hr
        exact (refers_rows hr hrow).mpr (by simpa using hmem)
      · rintro ⟨s, hs, s', hs', rfl, hpath', hmem⟩
        rw [row_of_path hs' hrow hpath'] at hmem
        exact ⟨s, List.mem_filter.mpr ⟨hs, by simpa using hmem⟩, rfl⟩

theorem mem_queryValidDerivers {db : Db} {t u : Bytes} :
    t ∈ db.queryValidDerivers u ↔
      ∃ v ∈ db.validPaths, v.path = t ∧ ∃ d ∈ db.derivationOutputs, d.path = u ∧ d.drv = v.id := by
  unfold queryValidDerivers
  simp only [List.mem_map, List.mem_filter, decide_eq_true_eq]
  constructor
  · rintro ⟨v, ⟨hv, hd⟩, rfl⟩
    exact ⟨v, hv, rfl, hd⟩
  · rintro ⟨v, hv, rfl, hd⟩
    exact ⟨v, ⟨hv, hd⟩, rfl⟩

/-! ## What the updates do -/

theorem registerValidPath_eq_ok {db db' : Db} {cols : PathColumns}
    (h : db.registerValidPath cols = .ok db') :
    ¬ db.Valid cols.path ∧
      db'.validPaths = db.validPaths ++ [{ cols with id := db.lastId + 1 }] ∧
      db'.refs = db.refs := by
  unfold registerValidPath at h
  split at h
  · cases h
  · cases h
    exact ⟨‹_›, rfl, rfl⟩

theorem registerValidPath_of_not_valid {db : Db} (cols : PathColumns) (h : ¬ db.Valid cols.path) :
    ∃ db', db.registerValidPath cols = .ok db' := by
  unfold Valid at h
  unfold registerValidPath
  rw [dif_neg h]
  exact ⟨_, rfl⟩

section Register

variable {db db' : Db} {cols : PathColumns} (h : db.registerValidPath cols = .ok db')
include h

theorem queryPathInfo_register (path : Bytes) : db'.queryPathInfo path =
    if path = cols.path then some { cols with id := db.lastId + 1 } else db.queryPathInfo path := by
  obtain ⟨hnew, hrows, -⟩ := registerValidPath_eq_ok h
  by_cases hpath : path = cols.path
  · rw [if_pos hpath, queryPathInfo_eq_some, hrows]
    exact ⟨List.mem_append_right _ (List.mem_singleton.mpr rfl), hpath.symm⟩
  · rw [if_neg hpath, queryPathInfo, hrows, List.find?_append]
    have hmiss : ([{ cols with id := db.lastId + 1 }] : List ValidPathRow).find?
        (fun r => r.path = path) = none := by
      simp [Ne.symm hpath]
    rw [hmiss, Option.or_none]
    rfl

theorem refers_register (t u : Bytes) : db'.Refers t u ↔ db.Refers t u := by
  obtain ⟨hnew, hrows, hrefs⟩ := registerValidPath_eq_ok h
  unfold Refers
  rw [hrows, hrefs]
  -- the new row has no references: its id is above all ids in the table
  have hfresh : ∀ e ∈ db.refs, e.1 ≠ db.lastId + 1 ∧ e.2 ≠ db.lastId + 1 := by
    intro e he
    obtain ⟨⟨r, hr, hid⟩, r', hr', hid'⟩ := db.refs_foreign e he
    have hle := db.id_le r hr
    have hle' := db.id_le r' hr'
    omega
  constructor
  · rintro ⟨r, hr, r', hr', hpath, hpath', hmem⟩
    obtain ⟨hne, hne'⟩ := hfresh _ hmem
    rcases List.mem_append.mp hr with hr | hr
    · rcases List.mem_append.mp hr' with hr' | hr'
      · exact ⟨r, hr, r', hr', hpath, hpath', hmem⟩
      · rw [List.mem_singleton.mp hr'] at hne'
        exact absurd rfl hne'
    · rw [List.mem_singleton.mp hr] at hne
      exact absurd rfl hne
  · rintro ⟨r, hr, r', hr', hpath, hpath', hmem⟩
    exact ⟨r, List.mem_append_left _ hr, r', List.mem_append_left _ hr', hpath, hpath', hmem⟩

end Register

section Update

variable (db : Db) (path : Bytes) (narSize : Option UInt64) (hash : Bytes)
  (ultimate : Option Int) (sigs ca : Option Bytes)

theorem queryPathInfo_update (t : Bytes) :
    (db.updatePathInfo path narSize hash ultimate sigs ca).queryPathInfo t =
      (db.queryPathInfo t).map (updateRow path narSize hash ultimate sigs ca) := by
  unfold queryPathInfo updatePathInfo
  rw [List.find?_map]
  simp only [Function.comp_def, updateRow_path]

theorem refers_update (t u : Bytes) :
    (db.updatePathInfo path narSize hash ultimate sigs ca).Refers t u ↔ db.Refers t u := by
  unfold Refers updatePathInfo
  simp only [List.mem_map, exists_exists_and_eq_and, updateRow_path, updateRow_id]

end Update

section AddReference

variable {db db' : Db} {r r' : ValidPathRow} (hr : r ∈ db.validPaths) (hr' : r' ∈ db.validPaths)
include hr hr'

theorem addReference_rows : ∃ db', db.addReference r.id r'.id = .ok db' ∧
    db'.validPaths = db.validPaths ∧ db'.refs = insert (r.id, r'.id) db.refs := by
  unfold addReference
  rw [dif_pos ⟨⟨r, hr, rfl⟩, r', hr', rfl⟩]
  exact ⟨_, rfl, rfl, rfl⟩

theorem queryPathInfo_addReference (h : db.addReference r.id r'.id = .ok db') (t : Bytes) :
    db'.queryPathInfo t = db.queryPathInfo t := by
  obtain ⟨db'', hok, hrows, -⟩ := addReference_rows hr hr'
  cases hok.symm.trans h
  rw [queryPathInfo, hrows, queryPathInfo]

theorem refers_addReference (h : db.addReference r.id r'.id = .ok db') (t u : Bytes) :
    db'.Refers t u ↔ db.Refers t u ∨ (t = r.path ∧ u = r'.path) := by
  obtain ⟨db'', hok, hrows, hrefs⟩ := addReference_rows hr hr'
  cases hok.symm.trans h
  unfold Refers
  rw [hrows, hrefs]
  constructor
  · rintro ⟨s, hs, s', hs', rfl, rfl, hmem⟩
    rcases Finset.mem_insert.mp hmem with heq | hmem
    · obtain ⟨hid, hid'⟩ := Prod.mk.inj heq
      exact Or.inr ⟨by rw [row_of_id hs hr hid], by rw [row_of_id hs' hr' hid']⟩
    · exact Or.inl ⟨s, hs, s', hs', rfl, rfl, hmem⟩
  · rintro (⟨s, hs, s', hs', hpath, hpath', hmem⟩ | ⟨rfl, rfl⟩)
    · exact ⟨s, hs, s', hs', hpath, hpath', Finset.mem_insert_of_mem hmem⟩
    · exact ⟨r, hr, r', hr', rfl, rfl, Finset.mem_insert_self _ _⟩

end AddReference

/-- A path without referrers other than itself can be deleted. -/
theorem invalidatePath_of_unreferenced {db : Db} {path : Bytes}
    (h : ∀ t, db.Refers t path → t = path) : ∃ db', db.invalidatePath path = .ok db' := by
  unfold invalidatePath
  cases hquery : db.queryPathInfo path with
  | none => exact ⟨db, rfl⟩
  | some row =>
      obtain ⟨hrow, rfl⟩ := queryPathInfo_eq_some.mp hquery
      have hfree : ¬ ∃ e ∈ db.refs, e.2 = row.id ∧ e.1 ≠ row.id := by
        rintro ⟨⟨a, b⟩, he, rfl, hne⟩
        obtain ⟨⟨r, hr, hid⟩, -⟩ := db.refs_foreign _ he
        subst hid
        have heq := h r.path ((refers_rows hr hrow).mpr he)
        exact hne (by rw [row_of_path hr hrow heq])
      simp only
      rw [dif_neg hfree]
      exact ⟨_, rfl⟩

/-- What a deletion leaves. -/
theorem invalidatePath_eq_ok {db db' : Db} {path : Bytes} (h : db.invalidatePath path = .ok db') :
    (¬ db.Valid path ∧ db' = db) ∨
      ∃ row ∈ db.validPaths, row.path = path ∧ db'.validPaths = db.without row.id ∧
        db'.refs = db.refs.filter (fun e => e.1 ≠ row.id) := by
  unfold invalidatePath at h
  cases hquery : db.queryPathInfo path with
  | none =>
      rw [hquery] at h
      cases h
      exact Or.inl ⟨queryPathInfo_eq_none.mp hquery, rfl⟩
  | some row =>
      obtain ⟨hrow, hpath⟩ := queryPathInfo_eq_some.mp hquery
      rw [hquery] at h
      simp only at h
      split at h
      · cases h
      · cases h
        exact Or.inr ⟨row, hrow, hpath, rfl, rfl⟩

/-- A path can only be deleted if nothing else refers to it. -/
theorem unreferenced_of_invalidate {db db' : Db} {path : Bytes}
    (h : db.invalidatePath path = .ok db') {t : Bytes} (href : db.Refers t path) : t = path := by
  obtain ⟨r, hr, row, hrow, rfl, rfl, hmem⟩ := href
  have hquery : db.queryPathInfo row.path = some row := queryPathInfo_eq_some.mpr ⟨hrow, rfl⟩
  unfold invalidatePath at h
  rw [hquery] at h
  simp only at h
  split at h
  · cases h
  · next hfree =>
      by_contra hne
      refine hfree ⟨(r.id, row.id), hmem, rfl, fun hid => hne ?_⟩
      rw [row_of_id hr hrow hid]

section Invalidate

variable {db db' : Db} {path : Bytes} (h : db.invalidatePath path = .ok db')
include h

theorem queryPathInfo_invalidate (t : Bytes) :
    db'.queryPathInfo t = if t = path then none else db.queryPathInfo t := by
  rcases invalidatePath_eq_ok h with ⟨hinvalid, rfl⟩ | ⟨row, hrow, rfl, hrows, -⟩
  · by_cases ht : t = path
    · rw [if_pos ht, ht, queryPathInfo_eq_none.mpr hinvalid]
    · rw [if_neg ht]
  · by_cases ht : t = row.path
    · rw [if_pos ht, queryPathInfo_eq_none]
      rintro ⟨r, hr, hpath⟩
      rw [hrows] at hr
      obtain ⟨hr, hne⟩ := mem_without.mp hr
      exact hne (by rw [row_of_path hr hrow (hpath.trans ht)])
    · rw [if_neg ht]
      apply Option.ext
      intro r
      show db'.queryPathInfo t = some r ↔ db.queryPathInfo t = some r
      rw [queryPathInfo_eq_some, queryPathInfo_eq_some, hrows, mem_without]
      constructor
      · rintro ⟨⟨hr, -⟩, hpath⟩
        exact ⟨hr, hpath⟩
      · rintro ⟨hr, hpath⟩
        refine ⟨⟨hr, fun hid => ht ?_⟩, hpath⟩
        rw [← hpath, row_of_id hr hrow hid]

theorem valid_invalidate (t : Bytes) : db'.Valid t ↔ db.Valid t ∧ t ≠ path := by
  rw [← isSome_queryPathInfo, queryPathInfo_invalidate h, ← isSome_queryPathInfo]
  by_cases ht : t = path
  · simp [ht]
  · simp [ht]

theorem refers_invalidate (t u : Bytes) :
    db'.Refers t u ↔ db.Refers t u ∧ t ≠ path ∧ u ≠ path := by
  have hvalid := valid_invalidate h
  constructor
  · intro href
    have ht := ((hvalid t).mp href.valid.1).2
    have hu := ((hvalid u).mp href.valid.2).2
    refine ⟨?_, ht, hu⟩
    rcases invalidatePath_eq_ok h with ⟨-, rfl⟩ | ⟨row, -, -, hrows, hrefs⟩
    · exact href
    · obtain ⟨r, hr, r', hr', hpath, hpath', hmem⟩ := href
      rw [hrows] at hr hr'
      rw [hrefs] at hmem
      exact ⟨r, (mem_without.mp hr).1, r', (mem_without.mp hr').1, hpath, hpath',
        (Finset.mem_filter.mp hmem).1⟩
  · rintro ⟨⟨r, hr, r', hr', rfl, rfl, hmem⟩, ht, hu⟩
    rcases invalidatePath_eq_ok h with ⟨-, rfl⟩ | ⟨row, hrow, rfl, hrows, hrefs⟩
    · exact ⟨r, hr, r', hr', rfl, rfl, hmem⟩
    · have hid : r.id ≠ row.id := fun heq => ht (by rw [row_of_id hr hrow heq])
      have hid' : r'.id ≠ row.id := fun heq => hu (by rw [row_of_id hr' hrow heq])
      unfold Refers
      rw [hrows, hrefs]
      exact ⟨r, mem_without.mpr ⟨hr, hid⟩, r', mem_without.mpr ⟨hr', hid'⟩, rfl, rfl,
        Finset.mem_filter.mpr ⟨hmem, hid⟩⟩

theorem mem_queryValidDerivers_invalidate (t u : Bytes) :
    t ∈ db'.queryValidDerivers u ↔ t ∈ db.queryValidDerivers u ∧ t ≠ path := by
  rw [mem_queryValidDerivers, mem_queryValidDerivers]
  unfold invalidatePath at h
  cases hquery : db.queryPathInfo path with
  | none =>
      rw [hquery] at h
      cases h
      refine ⟨fun ht => ⟨ht, ?_⟩, fun ht => ht.1⟩
      obtain ⟨v, hv, rfl, -⟩ := ht
      rintro rfl
      exact queryPathInfo_eq_none.mp hquery ⟨v, hv, rfl⟩
  | some row =>
      obtain ⟨hrow, rfl⟩ := queryPathInfo_eq_some.mp hquery
      rw [hquery] at h
      simp only at h
      split at h
      · cases h
      cases h
      constructor
      · rintro ⟨v, hv, rfl, d, hd, hpath, hdrv⟩
        obtain ⟨hv, hne⟩ := mem_without.mp hv
        refine ⟨⟨v, hv, rfl, d, (List.mem_filter.mp hd).1, hpath, hdrv⟩, fun heq => hne ?_⟩
        rw [row_of_path hv hrow heq]
      · rintro ⟨⟨v, hv, rfl, d, hd, hpath, hdrv⟩, hne⟩
        have hid : v.id ≠ row.id := fun heq => hne (by rw [row_of_id hv hrow heq])
        refine ⟨v, mem_without.mpr ⟨hv, hid⟩, rfl, d, List.mem_filter.mpr ⟨hd, ?_⟩, hpath, hdrv⟩
        rw [hdrv]
        exact decide_eq_true hid

end Invalidate

end Db
end NixStore
