/-
  NixStore.Store.OpenStoreInv

  The invariant of processes that open one store.

  The invariant says what a process knows of the file `schema` and of the
  database at the place where it is.  Who changes them has a lock: a process that
  creates the store shares it with others that create it too, and a process that
  migrates has it alone.  Both only ever lead on to the current version.
-/

import NixStore.Store.OpenStore

namespace NixStore
namespace OpenStore

-- ============================================================================
-- Databases
-- ============================================================================

/-- The tables that a statement of `schema.sql` makes sure of. -/
def Statement.makes : Statement → Finset Table
  | .createTable table _ _ => {table}
  | _ => ∅

/-- The tables that it cannot do without. -/
def Statement.needs : Statement → Finset Table
  | .createIndexIfNotExists _ table => {table}
  | .createDeleteSelfRefsIfNotExists => {.validPaths}
  | _ => ∅

/-- `schema.sql` makes each table before it makes something on it. -/
theorem schema_ordered {before rest : List Statement} {statement : Statement}
    (h : before ++ statement :: rest = schema) {table : Table} (hneeds : table ∈ statement.needs) :
    ∃ b ∈ before, table ∈ b.makes := by
  have hall : ∀ i < schema.length, ∀ st ∈ schema[i]?, ∀ t ∈ st.needs,
      ∃ b ∈ schema.take i, t ∈ b.makes := by decide
  have hlength : before.length < schema.length := by
    rw [← h]
    simp
  have htake : schema.take before.length = before := by rw [← h, List.take_left]
  have hget : schema[before.length]? = some statement := by simp [← h]
  have := hall before.length hlength statement hget table hneeds
  rwa [htake] at this

namespace Database

variable {db db' : Database}

/-- Every table but `SchemaMigrations` is as `schema.sql` makes it. -/
def Modern (db : Database) : Prop :=
  ∀ table columns, table ≠ .schemaMigrations → db.columns table = some columns →
    .createTable table columns true ∈ schema

/-- The migration of `upgradeDBSchema` is recorded. -/
def Recorded (db : Database) : Prop := dropRedundantIndexReferrer ∈ db.migrations

theorem modern_empty : empty.Modern := fun _ _ _ h => by cases h

/-- What `schema.sql` says about a table. -/
theorem Modern.columns_eq (h : db.Modern) {table : Table} {columns : Finset Column}
    (hmem : .createTable table columns true ∈ schema) (hmade : db.columns table ≠ none) :
    db.columns table = some columns := by
  obtain ⟨columns', hcolumns⟩ := Option.ne_none_iff_exists'.mp hmade
  have hne : table ≠ .schemaMigrations := by
    rintro rfl
    simp [schema] at hmem
  have hmem' := h table columns' hne hcolumns
  have hunique : ∀ st ∈ schema, ∀ st' ∈ schema, ∀ t c c', st = .createTable t c true →
      st' = .createTable t c' true → c = c' := by
    intro st hst st' hst' t c c' e e'
    subst e e'
    simp only [schema, List.mem_cons, Statement.createTable.injEq, List.not_mem_nil,
      reduceCtorEq, false_or, or_false] at hst hst'
    rcases hst with ⟨rfl, rfl, -⟩ | ⟨rfl, rfl, -⟩ | ⟨rfl, rfl, -⟩
    all_goals simp at hst'
    all_goals exact hst'.symm
  rw [hcolumns, hunique _ hmem _ hmem' _ _ _ rfl rfl]

/-- A database of the current version is what `schema.sql` makes. -/
theorem HasVersion.modern (h : db.HasVersion 10) : db.Modern := by
  intro table columns hne hcolumns
  cases table with
  | validPaths =>
      rw [h.validPaths] at hcolumns
      cases hcolumns
      decide
  | refs =>
      rw [h.refs] at hcolumns
      cases hcolumns
      decide
  | derivationOutputs =>
      rw [h.derivationOutputs] at hcolumns
      cases hcolumns
      decide
  | failedPaths =>
      rw [h.failedPaths.mpr (by decide)] at hcolumns
      cases hcolumns
  | schemaMigrations => exact absurd rfl hne

/-- What `schema.sql` makes is a database of the current version. -/
theorem Modern.hasVersion (h : db.Modern)
    (hmade : ∀ st ∈ schema, ∀ table ∈ st.makes, db.columns table ≠ none) : db.HasVersion 10 where
  validPaths := h.columns_eq (by decide)
    (hmade (.createTable .validPaths validPathsColumns true) (by decide) _ (by decide))
  failedPaths := by
    refine ⟨fun _ => by decide, fun _ => ?_⟩
    by_contra hsome
    obtain ⟨columns, hcolumns⟩ := Option.ne_none_iff_exists'.mp hsome
    have := h .failedPaths columns Table.noConfusion hcolumns
    simp [schema] at this
  refs := h.columns_eq (by decide)
    (hmade (.createTable .refs refsColumns true) (by decide) _ (by decide))
  derivationOutputs := h.columns_eq (by decide)
    (hmade (.createTable .derivationOutputs derivationOutputsColumns true) (by decide) _
      (by decide))

/-- Every prepared statement finds its columns. -/
theorem HasVersion.prepares (h : db.HasVersion 10) :
    preparedStatements.find? (fun statement => !db.prepares statement) = none := by
  have hprepares : ∀ statement ∈ preparedStatements, db.prepares statement = true := by
    intro statement hmem
    simp only [preparedStatements, List.mem_cons, List.not_mem_nil, or_false] at hmem
    rcases hmem with rfl | rfl | rfl | rfl | rfl | rfl
    all_goals simp only [Database.prepares, h.validPaths, h.refs, h.derivationOutputs]
    all_goals decide
  rw [List.find?_eq_none]
  intro statement hmem
  simp [hprepares statement hmem]

/-- What a statement of `schema.sql` leaves alone. -/
structure Kept (db db' : Database) : Prop where
  modern : db.Modern → db'.Modern
  made : ∀ table, db.columns table ≠ none → db'.columns table = db.columns table
  migrations : db'.migrations = db.migrations

/-- A statement of `schema.sql` succeeds on what the earlier ones have made, and
    does no harm to what others have. -/
theorem exec_schema {statement : Statement} (hmem : statement ∈ schema)
    (hneeds : ∀ table ∈ statement.needs, db.columns table ≠ none) :
    ∃ db', db.exec statement = .ok db' ∧ Kept db db' ∧
      ∀ table ∈ statement.makes, db'.columns table ≠ none := by
  cases statement with
  | createTable table columns ifNotExists =>
      have hif : ifNotExists = true ∧ table ≠ .schemaMigrations := by
        revert hmem
        simp only [schema, List.mem_cons, Statement.createTable.injEq, List.not_mem_nil,
          reduceCtorEq, false_or, or_false]
        rintro (⟨rfl, -, rfl⟩ | ⟨rfl, -, rfl⟩ | ⟨rfl, -, rfl⟩) <;> exact ⟨rfl, by decide⟩
      obtain ⟨rfl, -⟩ := hif
      cases hcolumns : db.columns table with
      | some old =>
          refine ⟨db, by simp [exec, hcolumns], ⟨id, fun _ _ => rfl, rfl⟩, ?_⟩
          intro t ht
          rw [Finset.mem_singleton.mp ht, hcolumns]
          exact Option.some_ne_none old
      | none =>
          refine ⟨db.setColumns table (some columns), by simp [exec, hcolumns],
            ⟨?_, ?_, rfl⟩, ?_⟩
          · intro hmodern t c hne hc
            by_cases ht : t = table
            · subst ht
              rw [setColumns_self] at hc
              cases hc
              exact hmem
            · rw [setColumns_of_ne db _ ht] at hc
              exact hmodern t c hne hc
          · intro t ht
            refine setColumns_of_ne db _ ?_
            rintro rfl
            exact ht hcolumns
          · intro t ht
            rw [Finset.mem_singleton.mp ht, setColumns_self]
            exact Option.some_ne_none columns
  | createIndexIfNotExists index table =>
      obtain ⟨columns, hcolumns⟩ :=
        Option.ne_none_iff_exists'.mp (hneeds table (Finset.mem_singleton_self table))
      exact ⟨{ db with indexes := insert index db.indexes }, by simp only [exec, hcolumns],
        ⟨id, fun _ _ => rfl, rfl⟩, fun t ht => by simp [Statement.makes] at ht⟩
  | createDeleteSelfRefsIfNotExists =>
      obtain ⟨columns, hcolumns⟩ :=
        Option.ne_none_iff_exists'.mp (hneeds .validPaths (Finset.mem_singleton_self _))
      exact ⟨{ db with deleteSelfRefs := true }, by simp only [exec, hcolumns],
        ⟨id, fun _ _ => rfl, rfl⟩, fun t ht => by simp [Statement.makes] at ht⟩
  | addColumn table column => simp [schema] at hmem
  | dropTable table => simp [schema] at hmem
  | dropIndexIfExists index => simp [schema] at hmem
  | insertOrIgnoreMigration name => simp [schema] at hmem

/-- What `schema.sql` does to a database of the current version keeps the version. -/
theorem Kept.hasVersion (h : Kept db db') (hversion : db.HasVersion 10) : db'.HasVersion 10 := by
  have hmodern := h.modern hversion.modern
  refine hmodern.hasVersion ?_
  intro st hst table htable
  have hmade : db.columns table ≠ none := by
    simp only [schema, List.mem_cons, List.not_mem_nil, or_false] at hst
    rcases hst with rfl | rfl | rfl | rfl | rfl | rfl
    all_goals simp only [Statement.makes, Finset.mem_singleton, Finset.notMem_empty] at htable
    · rw [htable, hversion.validPaths]
      exact Option.some_ne_none _
    · rw [htable, hversion.refs]
      exact Option.some_ne_none _
    · rw [htable, hversion.derivationOutputs]
      exact Option.some_ne_none _
  rw [h.made table hmade]
  exact hmade

/-- The migrations of a store of version 6 or 7. -/
theorem HasVersion.addUltimateAndSigs {v : Int} (h : db.HasVersion v) (hv : v < 8) :
    ∃ db', db.transaction [.addColumn .validPaths .ultimate, .addColumn .validPaths .sigs] =
      .ok db' ∧ db'.HasVersion 8 ∧ db'.migrations = db.migrations := by
  have hcolumns : db.columns .validPaths = some baseColumns := by
    rw [h.validPaths, if_neg (by omega), if_neg (by omega)]
    decide
  refine ⟨(db.setColumns .validPaths (some (insert .ultimate baseColumns))).setColumns .validPaths
    (some (insert .sigs (insert .ultimate baseColumns))), ?_, ?_, rfl⟩
  · have hultimate : Column.ultimate ∉ baseColumns := by decide
    have hsigs : Column.sigs ∉ insert Column.ultimate baseColumns := by decide
    simp [transaction, exec, hcolumns, hultimate, hsigs]
  · have hother : ∀ t, t ≠ .validPaths → ∀ c c', ((db.setColumns .validPaths c).setColumns
        .validPaths c').columns t = db.columns t := by
      intro t ht c c'
      rw [setColumns_of_ne _ _ ht, setColumns_of_ne _ _ ht]
    refine ⟨by rw [setColumns_self]; decide, ?_, ?_, ?_⟩
    · rw [hother _ Table.noConfusion, h.failedPaths]
      omega
    · rw [hother _ Table.noConfusion, h.refs]
    · rw [hother _ Table.noConfusion, h.derivationOutputs]

/-- The migration of a store of version 8. -/
theorem HasVersion.dropFailedPaths {v : Int} (h : db.HasVersion v) (h8 : 8 ≤ v) (hv : v < 9) :
    ∃ db', db.transaction [.dropTable .failedPaths] = .ok db' ∧ db'.HasVersion 9 ∧
      db'.migrations = db.migrations := by
  obtain ⟨columns, hcolumns⟩ : ∃ columns, db.columns .failedPaths = some columns := by
    rw [← Option.ne_none_iff_exists', ne_eq, h.failedPaths]
    omega
  refine ⟨db.setColumns .failedPaths none, ?_, ?_, rfl⟩
  · simp [transaction, exec, hcolumns]
  · refine ⟨?_, by simp, ?_, ?_⟩
    · rw [setColumns_of_ne _ _ Table.noConfusion, h.validPaths, if_pos h8, if_neg (by omega)]
      decide
    · rw [setColumns_of_ne _ _ Table.noConfusion, h.refs]
    · rw [setColumns_of_ne _ _ Table.noConfusion, h.derivationOutputs]

/-- The migration of a store of version 9. -/
theorem HasVersion.addCa {v : Int} (h : db.HasVersion v) (h9 : 9 ≤ v) (hv : v < 10) :
    ∃ db', db.transaction [.addColumn .validPaths .ca] = .ok db' ∧ db'.HasVersion 10 ∧
      db'.migrations = db.migrations := by
  have hcolumns : db.columns .validPaths = some (baseColumns ∪ {.ultimate, .sigs}) := by
    rw [h.validPaths, if_pos (by omega), if_neg (by omega)]
    decide
  refine ⟨db.setColumns .validPaths (some (insert .ca (baseColumns ∪ {.ultimate, .sigs}))),
    ?_, ?_, rfl⟩
  · have hca : Column.ca ∉ baseColumns ∪ {.ultimate, .sigs} := by decide
    simp only [transaction, List.foldlM_cons, exec, hcolumns, if_neg hca]
    rfl
  · refine ⟨by rw [setColumns_self]; decide, ?_, ?_, ?_⟩
    · rw [setColumns_of_ne _ _ Table.noConfusion, h.failedPaths]
      omega
    · rw [setColumns_of_ne _ _ Table.noConfusion, h.refs]
    · rw [setColumns_of_ne _ _ Table.noConfusion, h.derivationOutputs]

/-- What only touches `SchemaMigrations` leaves the version alone. -/
theorem HasVersion.of_columns {v : Int} (h : db.HasVersion v)
    (heq : ∀ table, table ≠ .schemaMigrations → db'.columns table = db.columns table) :
    db'.HasVersion v where
  validPaths := by rw [heq _ Table.noConfusion, h.validPaths]
  failedPaths := by rw [heq _ Table.noConfusion, h.failedPaths]
  refs := by rw [heq _ Table.noConfusion, h.refs]
  derivationOutputs := by rw [heq _ Table.noConfusion, h.derivationOutputs]

/-- The table of `upgradeDBSchema` is made where there is none. -/
theorem HasVersion.createMigrations {v : Int} (h : db.HasVersion v)
    (hnone : db.columns .schemaMigrations = none) :
    ∃ db', db.transaction [.createTable .schemaMigrations {.migration} false] = .ok db' ∧
      db'.HasVersion v ∧ db'.columns .schemaMigrations ≠ none ∧
      db'.migrations = db.migrations := by
  refine ⟨db.setColumns .schemaMigrations (some {.migration}), ?_, ?_, ?_, rfl⟩
  · simp [transaction, exec, hnone]
  · exact h.of_columns fun table hne => setColumns_of_ne _ _ hne
  · rw [setColumns_self]
    exact Option.some_ne_none _

/-- The migration of `upgradeDBSchema`, whether the index is there or not. -/
theorem HasVersion.dropIndexReferrer {v : Int} (h : db.HasVersion v)
    (hmade : db.columns .schemaMigrations ≠ none) :
    ∃ db', db.transaction [.dropIndexIfExists .indexReferrer,
        .insertOrIgnoreMigration dropRedundantIndexReferrer] = .ok db' ∧
      db'.HasVersion v ∧ db'.Recorded := by
  obtain ⟨columns, hcolumns⟩ := Option.ne_none_iff_exists'.mp hmade
  refine ⟨{ db with
    indexes := db.indexes.erase .indexReferrer
    migrations := insert dropRedundantIndexReferrer db.migrations }, ?_, ?_, ?_⟩
  · simp only [transaction, List.foldlM_cons, exec, bind, Except.bind, hcolumns]
    rfl
  · exact h.of_columns fun _ _ => rfl
  · exact Finset.mem_insert_self ..

end Database

/-- What the version in the file `schema` is read as. -/
theorem string2Int_version {v : Nat} (h6 : 6 ≤ v) (h10 : v ≤ 10) :
    string2Int (decimal v) = some (v : Int) := by
  obtain rfl | rfl | rfl | rfl | rfl : v = 6 ∨ v = 7 ∨ v = 8 ∨ v = 9 ∨ v = 10 := by omega
  all_goals decide

-- ============================================================================
-- The invariant
-- ============================================================================

/-- Whether a process at this place has the shared lock, if it takes locks. -/
def Pc.shares : Pc → Bool
  | .schemaExists | .readSchema | .create _ | .truncate | .write | .tryExclusive _
  | .hasMigrations | .readMigrations | .prepare | .opened => true
  | _ => false

/-- Whether a process at this place has the exclusive lock. -/
def Pc.excludes : Pc → Bool
  | .schemaExistsAgain | .readSchemaAgain | .migrate8 _ | .migrate9 _ | .migrate10 _
  | .truncateMigrated _ | .writeMigrated | .downgrade _ | .hasMigrationsAgain
  | .createMigrations | .readMigrationsAgain | .dropIndexReferrer => true
  | _ => false

/-- Where a process that takes no locks can be. -/
def Pc.lockless : Pc → Bool
  | .idle | .schemaExists | .readSchema | .prepare | .opened | .failed _ => true
  | _ => false

/-- Whether the file `schema` and the database may be at odds. -/
def Pc.between : Pc → Bool
  | .migrate9 _ | .migrate10 _ | .truncateMigrated _ | .writeMigrated => true
  | _ => false

theorem Pc.excludes_of_between {pc : Pc} (h : pc.between = true) : pc.excludes = true := by
  cases pc <;> first | rfl | cases h

variable {Pid : Type} [DecidableEq Pid] {readOnly : Pid → Bool}

/-- Which locks a process has. -/
structure Holds (readOnly : Pid → Bool) (s : State Pid) (p : Pid) (pc : Pc) : Prop where
  shared : p ∈ s.shared ↔ pc.shares = true ∧ readOnly p = false
  exclusive : s.exclusive = some p ↔ pc.excludes = true
  lockless : readOnly p = true → pc.lockless = true

/-- Who has which lock. -/
structure LockInv (readOnly : Pid → Bool) (s : State Pid) : Prop where
  holds : ∀ p, Holds readOnly s p (s.pc p)
  alone : s.exclusive ≠ none → s.shared = ∅

/-- There is a database and it has a property. -/
def HasDb (s : State Pid) (P : Database → Prop) : Prop := ∃ db, s.db = some db ∧ P db

/-- Why an open may fail. -/
def Excused (readOnly : Pid → Bool) (s : State Pid) (p : Pid) (e : OpenError) : Prop :=
  (e = .corrupt ∧ .created ∈ s.log) ∨
    readOnly p = true ∧
      (e = .corrupt ∨ e = .readOnlyMissing ∨ e = .readOnlyOutdated ∨ ∃ sqlError, e = .sql sqlError)

/-- What a process knows where it is. -/
def Knows (readOnly : Pid → Bool) (s : State Pid) (p : Pid) : Pc → Prop
  | .readSchema | .tryExclusive .legacy | .unlock .legacy | .waitExclusive .legacy
  | .schemaExistsAgain | .readSchemaAgain => s.schemaFile ≠ none
  | .create rest => HasDb s fun db => db.Modern ∧ ∃ done, done ++ rest = schema ∧
      ∀ st ∈ done, ∀ table ∈ st.makes, db.columns table ≠ none
  | .truncate => HasDb s fun db => db.HasVersion 10
  | .write => .created ∈ s.log ∧ s.schemaFile ≠ none ∧ HasDb s fun db => db.HasVersion 10
  | .migrate8 curSchema => ∃ v : Nat, curSchema = v ∧ 6 ≤ v ∧ v ≤ 10 ∧
      s.schemaFile = some (decimal v) ∧ HasDb s fun db => db.HasVersion v
  | .migrate9 curSchema => ∃ v : Nat, curSchema = v ∧ 6 ≤ v ∧ v ≤ 10 ∧
      s.schemaFile = some (decimal v) ∧ HasDb s fun db => db.HasVersion (max v 8 : Nat)
  | .migrate10 curSchema => ∃ v : Nat, curSchema = v ∧ 6 ≤ v ∧ v ≤ 10 ∧
      s.schemaFile = some (decimal v) ∧ HasDb s fun db => db.HasVersion (max v 9 : Nat)
  | .truncateMigrated curSchema => ∃ v : Nat, curSchema = v ∧ 6 ≤ v ∧ v ≤ 10 ∧
      s.schemaFile = some (decimal v) ∧ HasDb s fun db => db.HasVersion 10
  | .writeMigrated => s.schemaFile = some [] ∧ HasDb s fun db => db.HasVersion 10
  | .downgrade .migrations | .waitSharedAgain .migrations =>
      HasDb s fun db => db.HasVersion 10 ∧ db.Recorded
  | .downgrade .legacy | .waitSharedAgain .legacy | .hasMigrations | .hasMigrationsAgain
  | .readMigrations | .tryExclusive .migrations | .unlock .migrations
  | .waitExclusive .migrations => HasDb s fun db => db.HasVersion 10
  | .createMigrations => HasDb s fun db => db.HasVersion 10 ∧ db.columns .schemaMigrations = none
  | .readMigrationsAgain =>
      HasDb s fun db => db.HasVersion 10 ∧ db.columns .schemaMigrations ≠ none
  | .dropIndexReferrer => HasDb s fun db =>
      db.HasVersion 10 ∧ db.columns .schemaMigrations ≠ none ∧ ¬ db.Recorded
  | .prepare | .opened =>
      readOnly p = false → HasDb s fun db => db.HasVersion 10 ∧ db.Recorded
  | .failed e => Excused readOnly s p e
  | .idle | .tryShared | .waitShared | .schemaExists => True

/-- The file `schema` and the database. -/
inductive World (s : State Pid) : Prop where
  /-- There is no store yet, or only parts of its database. -/
  | new (hfile : s.schemaFile = none) (hdb : ∀ db, s.db = some db → db.Modern)
  /-- The file says what the database is. -/
  | settled (v : Nat) (h6 : 6 ≤ v) (h10 : v ≤ 10) (hfile : s.schemaFile = some (decimal v))
      (hdb : HasDb s fun db => db.HasVersion v)
  /-- The file of a new store is empty, or has been left empty. -/
  | creating (hlog : .created ∈ s.log) (hfile : s.schemaFile = some [])
      (hdb : HasDb s fun db => db.HasVersion 10)
  /-- Somebody migrates the store. -/
  | migrating (p : Pid) (hp : (s.pc p).between = true)

/-- What a migration leaves behind, and no later step undoes. -/
def Migration.Done (m : Migration) (db : Database) : Prop :=
  match m with
  | .addUltimateAndSigs => ∃ columns, db.columns .validPaths = some columns ∧ .ultimate ∈ columns
  | .dropFailedPaths => db.columns .failedPaths = none
  | .addCa => ∃ columns, db.columns .validPaths = some columns ∧ .ca ∈ columns
  | .dropIndexReferrer => db.Recorded

/-- The log of a run. -/
structure LogInv (s : State Pid) : Prop where
  once : ∀ m, s.log.count (.migrated m) ≤ 1
  done : ∀ m, .migrated m ∈ s.log → HasDb s m.Done

/-- The invariant of processes that open one store. -/
structure Inv (readOnly : Pid → Bool) (s : State Pid) : Prop where
  lock : LockInv readOnly s
  knows : ∀ p, Knows readOnly s p (s.pc p)
  world : World s
  log : LogInv s

-- ============================================================================
-- Steps that change neither the file nor the database
-- ============================================================================

section Moves

variable {s s' : State Pid} {p : Pid} {pc : Pc}

omit [DecidableEq Pid] in
/-- What a process knows is about the file, the database and the log only. -/
theorem Knows.congr (h : Knows readOnly s p pc) (hfile : s'.schemaFile = s.schemaFile)
    (hdb : s'.db = s.db) (hlog : s'.log = s.log) : Knows readOnly s' p pc := by
  unfold Knows HasDb Excused
  rw [hfile, hdb, hlog]
  exact h

omit [DecidableEq Pid] in
/-- Only one process is where the exclusive lock is needed. -/
theorem LockInv.exclusive_unique (h : LockInv readOnly s) {q : Pid}
    (hp : (s.pc p).excludes = true) (hq : (s.pc q).excludes = true) : q = p := by
  have hp := (h.holds p).exclusive.mpr hp
  have hq := (h.holds q).exclusive.mpr hq
  rw [hp] at hq
  exact (Option.some.inj hq).symm

theorem LockInv.of_update (hpc : s'.pc = Function.update s.pc p pc)
    (hp : Holds readOnly s' p pc) (hothers : ∀ q, q ≠ p → Holds readOnly s' q (s.pc q))
    (halone : s'.exclusive ≠ none → s'.shared = ∅) : LockInv readOnly s' where
  holds q := by
    rw [hpc]
    by_cases hq : q = p
    · subst hq
      rw [Function.update_self]
      exact hp
    · rw [Function.update_of_ne hq]
      exact hothers q hq
  alone := halone

/-- A process moves on with the locks it has. -/
theorem LockInv.keep (h : LockInv readOnly s) (hshared : s'.shared = s.shared)
    (hexclusive : s'.exclusive = s.exclusive) (hpc : s'.pc = Function.update s.pc p pc)
    (hshares : pc.shares = (s.pc p).shares ∨ readOnly p = true)
    (hexcludes : pc.excludes = (s.pc p).excludes)
    (hlockless : readOnly p = true → pc.lockless = true) : LockInv readOnly s' := by
  refine .of_update hpc ⟨?_, ?_, hlockless⟩ (fun q _ => ⟨?_, ?_, (h.holds q).lockless⟩) ?_
  · rw [hshared, (h.holds p).shared]
    rcases hshares with hshares | hro
    · rw [hshares]
    · simp [hro]
  · rw [hexclusive, (h.holds p).exclusive, hexcludes]
  · rw [hshared, (h.holds q).shared]
  · rw [hexclusive, (h.holds q).exclusive]
  · rw [hshared, hexclusive]
    exact h.alone

/-- A process loses its locks. -/
theorem LockInv.release (h : LockInv readOnly s) (hshares : pc.shares = false)
    (hexcludes : pc.excludes = false) (hlockless : readOnly p = true → pc.lockless = true) :
    LockInv readOnly ((s.release p).setPc p pc) := by
  refine .of_update rfl ⟨?_, ?_, hlockless⟩ (fun q hq => ⟨?_, ?_, (h.holds q).lockless⟩) ?_
  all_goals simp only [State.release, State.setPc]
  · simp [hshares]
  · rw [hexcludes]
    split <;> simp [*]
  · rw [Finset.mem_erase, and_iff_right hq, (h.holds q).shared]
  · rw [← (h.holds q).exclusive]
    split
    · next hexclusive => simp [hexclusive, Ne.symm hq]
    · rfl
  · intro hexclusive
    split at hexclusive
    · exact absurd rfl hexclusive
    · rw [h.alone hexclusive, Finset.erase_empty]

/-- A process gets the shared lock. -/
theorem LockInv.share (h : LockInv readOnly s) (hs : s.share p = some s')
    (hreadOnly : readOnly p = false) (hshares : pc.shares = true)
    (hexcludes : pc.excludes = false) :
    LockInv readOnly (s'.setPc p pc) := by
  simp only [State.share] at hs
  split at hs
  case isFalse => cases hs
  case isTrue hfree =>
    cases hs
    refine .of_update rfl ⟨?_, ?_, by simp [hreadOnly]⟩
      (fun q hq => ⟨?_, ?_, (h.holds q).lockless⟩) (fun hne => absurd rfl hne)
    all_goals simp only [State.setPc]
    · simp [hshares, hreadOnly]
    · simp [hexcludes]
    · rw [Finset.mem_insert, or_iff_right hq, (h.holds q).shared]
    · rw [← (h.holds q).exclusive]
      rcases hfree with hnone | hsome
      · simp [hnone]
      · simp [hsome, Ne.symm hq]

/-- A process gets the exclusive lock. -/
theorem LockInv.exclude (h : LockInv readOnly s) (hs : s.exclude p = some s')
    (hreadOnly : readOnly p = false) (hshares : pc.shares = false)
    (hexcludes : pc.excludes = true) :
    LockInv readOnly (s'.setPc p pc) := by
  simp only [State.exclude] at hs
  split at hs
  case isFalse => cases hs
  case isTrue hfree =>
    cases hs
    refine .of_update rfl ⟨?_, ?_, by simp [hreadOnly]⟩
      (fun q hq => ⟨?_, ?_, (h.holds q).lockless⟩) (fun _ => rfl)
    all_goals simp only [State.setPc]
    · simp [hshares]
    · simp [hexcludes]
    · rw [← (h.holds q).shared]
      refine iff_of_false (Finset.notMem_empty q) fun hmem => hq ?_
      exact Finset.mem_singleton.mp (hfree.2 hmem)
    · rw [← (h.holds q).exclusive]
      rcases hfree.1 with hnone | hsome
      · simp [hnone, Ne.symm hq]
      · rw [hsome]

/-- A process that is not between the file and the database moves on. -/
theorem World.move (h : World s) (hfile : s'.schemaFile = s.schemaFile) (hdb : s'.db = s.db)
    (hlog : s'.log = s.log) (hpc : s'.pc = Function.update s.pc p pc)
    (hp : (s.pc p).between = false) : World s' := by
  cases h with
  | new hf hd => exact .new (hfile.trans hf) (hdb ▸ hd)
  | settled v h6 h10 hf hd =>
      exact .settled v h6 h10 (hfile.trans hf) (by unfold HasDb; rw [hdb]; exact hd)
  | creating hl hf hd =>
      exact .creating (hlog ▸ hl) (hfile.trans hf) (by unfold HasDb; rw [hdb]; exact hd)
  | migrating q hq =>
      refine .migrating q ?_
      have hne : q ≠ p := by
        rintro rfl
        rw [hp] at hq
        cases hq
      rw [hpc, Function.update_of_ne hne]
      exact hq

omit [DecidableEq Pid] in
theorem LogInv.congr (h : LogInv s) (hdb : s'.db = s.db) (hlog : s'.log = s.log) : LogInv s' where
  once := by
    rw [hlog]
    exact h.once
  done := by
    unfold HasDb
    rw [hdb, hlog]
    exact h.done

/-- A process moves on, gets a lock or loses it. -/
theorem Inv.move (h : Inv readOnly s) (hlock : LockInv readOnly s')
    (hfile : s'.schemaFile = s.schemaFile) (hdb : s'.db = s.db) (hlog : s'.log = s.log)
    (hpc : s'.pc = Function.update s.pc p pc) (hp : (s.pc p).between = false)
    (hknows : Knows readOnly s p pc) : Inv readOnly s' where
  lock := hlock
  knows q := by
    rw [hpc]
    by_cases hq : q = p
    · subst hq
      rw [Function.update_self]
      exact hknows.congr hfile hdb hlog
    · rw [Function.update_of_ne hq]
      exact (h.knows q).congr hfile hdb hlog
  world := h.world.move hfile hdb hlog hpc hp
  log := h.log.congr hdb hlog

theorem Inv.setPc (h : Inv readOnly s)
    (hshares : pc.shares = (s.pc p).shares ∨ readOnly p = true)
    (hexcludes : pc.excludes = (s.pc p).excludes)
    (hlockless : readOnly p = true → pc.lockless = true) (hp : (s.pc p).between = false)
    (hknows : Knows readOnly s p pc) : Inv readOnly (s.setPc p pc) :=
  h.move (h.lock.keep rfl rfl rfl hshares hexcludes hlockless) rfl rfl rfl rfl hp hknows

theorem Inv.release (h : Inv readOnly s) (hshares : pc.shares = false)
    (hexcludes : pc.excludes = false) (hlockless : readOnly p = true → pc.lockless = true)
    (hp : (s.pc p).between = false) (hknows : Knows readOnly s p pc) :
    Inv readOnly ((s.release p).setPc p pc) :=
  h.move (h.lock.release hshares hexcludes hlockless) rfl rfl rfl rfl hp hknows

theorem Inv.fail (h : Inv readOnly s) {e : OpenError} (hp : (s.pc p).between = false)
    (he : Excused readOnly s p e) : Inv readOnly (s.fail p e) :=
  h.release rfl rfl (fun _ => rfl) hp he

theorem Inv.share (h : Inv readOnly s) (hs : s.share p = some s') (hreadOnly : readOnly p = false)
    (hshares : pc.shares = true) (hexcludes : pc.excludes = false)
    (hp : (s.pc p).between = false) (hknows : Knows readOnly s p pc) :
    Inv readOnly (s'.setPc p pc) := by
  have hlock := h.lock.share hs hreadOnly hshares hexcludes
  simp only [State.share] at hs
  split at hs
  · cases hs
    exact h.move hlock rfl rfl rfl rfl hp hknows
  · cases hs

theorem Inv.exclude (h : Inv readOnly s) (hs : s.exclude p = some s')
    (hreadOnly : readOnly p = false) (hshares : pc.shares = false)
    (hexcludes : pc.excludes = true) (hp : (s.pc p).between = false)
    (hknows : Knows readOnly s p pc) : Inv readOnly (s'.setPc p pc) := by
  have hlock := h.lock.exclude hs hreadOnly hshares hexcludes
  simp only [State.exclude] at hs
  split at hs
  · cases hs
    exact h.move hlock rfl rfl rfl rfl hp hknows
  · cases hs

-- ============================================================================
-- Steps that change the file or the database
-- ============================================================================

/-- What the others may rely on when a process changes something. -/
structure Leads (s s' : State Pid) : Prop where
  file : s.schemaFile ≠ none → s'.schemaFile ≠ none
  version : (HasDb s fun db => db.HasVersion 10) → HasDb s' fun db => db.HasVersion 10
  recorded : (HasDb s fun db => db.HasVersion 10 ∧ db.Recorded) →
    HasDb s' fun db => db.HasVersion 10 ∧ db.Recorded
  log : ∀ e ∈ s.log, e ∈ s'.log

omit [DecidableEq Pid] in
/-- What a process without the exclusive lock knows stays true. -/
theorem Knows.mono (hleads : Leads s s') (hexcludes : pc.excludes = false)
    (hcreate : ∀ rest, pc = .create rest → Knows readOnly s p pc → Knows readOnly s' p pc)
    (h : Knows readOnly s p pc) : Knows readOnly s' p pc := by
  cases pc with
  | create rest => exact hcreate rest rfl h
  | readSchema => exact hleads.file h
  | truncate => exact hleads.version h
  | write => exact ⟨hleads.log _ h.1, hleads.file h.2.1, hleads.version h.2.2⟩
  | tryExclusive upgrade | unlock upgrade | waitExclusive upgrade =>
      cases upgrade with
      | legacy => exact hleads.file h
      | migrations => exact hleads.version h
  | waitSharedAgain upgrade =>
      cases upgrade with
      | legacy => exact hleads.version h
      | migrations => exact hleads.recorded h
  | hasMigrations | readMigrations => exact hleads.version h
  | prepare | opened => exact fun hreadOnly => hleads.recorded (h hreadOnly)
  | failed e =>
      rcases h with ⟨he, hlog⟩ | h
      · exact Or.inl ⟨he, hleads.log _ hlog⟩
      · exact Or.inr h
  | idle | tryShared | waitShared | schemaExists => trivial
  | schemaExistsAgain | readSchemaAgain | migrate8 _ | migrate9 _ | migrate10 _
  | truncateMigrated _ | writeMigrated | downgrade _ | hasMigrationsAgain | createMigrations
  | readMigrationsAgain | dropIndexReferrer => cases hexcludes

omit [DecidableEq Pid] in
/-- While somebody has the exclusive lock nobody creates the store. -/
theorem LockInv.not_create (h : LockInv readOnly s) (hp : (s.pc p).excludes = true) (q : Pid)
    (rest : List Statement) : s.pc q ≠ .create rest := by
  intro hq
  have hreadOnly : readOnly q = false := by
    rw [← Bool.not_eq_true]
    intro hro
    have := (h.holds q).lockless hro
    rw [hq] at this
    cases this
  have hmem : q ∈ s.shared := (h.holds q).shared.mpr ⟨by rw [hq]; rfl, hreadOnly⟩
  have hexclusive := (h.holds p).exclusive.mpr hp
  rw [h.alone (by rw [hexclusive]; exact Option.some_ne_none p)] at hmem
  exact Finset.notMem_empty q hmem

/-- A process with the exclusive lock changes something. -/
theorem Inv.changeAlone (h : Inv readOnly s) (hp : (s.pc p).excludes = true)
    (hlock : LockInv readOnly s') (hleads : Leads s s')
    (hpc : s'.pc = Function.update s.pc p pc) (hknows : Knows readOnly s' p pc)
    (hworld : World s') (hlog : LogInv s') : Inv readOnly s' where
  lock := hlock
  knows q := by
    rw [hpc]
    by_cases hq : q = p
    · subst hq
      rw [Function.update_self]
      exact hknows
    · rw [Function.update_of_ne hq]
      refine (h.knows q).mono hleads ?_ fun rest hcreate => absurd hcreate ?_
      · rw [← Bool.not_eq_true]
        exact fun hexcludes => hq (h.lock.exclusive_unique hp hexcludes)
      · exact h.lock.not_create hp q rest
  world := hworld
  log := hlog

/-- A process with the shared lock changes something. -/
theorem Inv.changeShared (h : Inv readOnly s) (hp : p ∈ s.shared)
    (hlock : LockInv readOnly s') (hleads : Leads s s')
    (hcreate : ∀ q rest, Knows readOnly s q (.create rest) → Knows readOnly s' q (.create rest))
    (hpc : s'.pc = Function.update s.pc p pc) (hknows : Knows readOnly s' p pc)
    (hworld : World s') (hlog : LogInv s') : Inv readOnly s' where
  lock := hlock
  knows q := by
    rw [hpc]
    by_cases hq : q = p
    · subst hq
      rw [Function.update_self]
      exact hknows
    · rw [Function.update_of_ne hq]
      refine (h.knows q).mono hleads ?_ fun rest hrest => ?_
      · rw [← Bool.not_eq_true, ← (h.lock.holds q).exclusive]
        intro hexclusive
        rw [h.lock.alone (by rw [hexclusive]; exact Option.some_ne_none q)] at hp
        exact Finset.notMem_empty p hp
      · rw [hrest]
        exact hcreate q rest
  world := hworld
  log := hlog

/-- What the version says about the migrations. -/
theorem Database.HasVersion.done_iff {db : Database} {v : Int} (h : db.HasVersion v) :
    (Migration.addUltimateAndSigs.Done db ↔ 8 ≤ v) ∧
      (Migration.dropFailedPaths.Done db ↔ 9 ≤ v) ∧ (Migration.addCa.Done db ↔ 10 ≤ v) := by
  refine ⟨?_, h.failedPaths, ?_⟩
  all_goals simp only [Migration.Done, h.validPaths, Option.some.injEq, exists_eq_left']
  all_goals by_cases h8 : 8 ≤ v
  all_goals by_cases h10 : 10 ≤ v
  all_goals simp only [h8, h10, if_true, if_false, iff_true, iff_false]
  all_goals decide

/-- A later version undoes no migration. -/
theorem Migration.Done.mono {db db' : Database} {v v' : Int} (hv : db.HasVersion v)
    (hv' : db'.HasVersion v') (hle : v ≤ v') (hrecorded : db.Recorded → db'.Recorded)
    {m : Migration} (h : m.Done db) : m.Done db' := by
  cases m with
  | addUltimateAndSigs => exact hv'.done_iff.1.mpr (le_trans (hv.done_iff.1.mp h) hle)
  | dropFailedPaths => exact hv'.done_iff.2.1.mpr (le_trans (hv.done_iff.2.1.mp h) hle)
  | addCa => exact hv'.done_iff.2.2.mpr (le_trans (hv.done_iff.2.2.mp h) hle)
  | dropIndexReferrer => exact hrecorded h

/-- Neither does a statement of `schema.sql`. -/
theorem Migration.Done.kept {db db' : Database} (hkept : Database.Kept db db')
    (hmodern : db.Modern) {m : Migration} (h : m.Done db) : m.Done db' := by
  have hcolumns : ∀ {table columns}, db.columns table = some columns →
      db'.columns table = some columns := by
    intro table columns hsome
    rw [hkept.made table (by rw [hsome]; exact Option.some_ne_none _), hsome]
  cases m with
  | addUltimateAndSigs => exact ⟨h.choose, hcolumns h.choose_spec.1, h.choose_spec.2⟩
  | dropFailedPaths =>
      by_contra hsome
      obtain ⟨columns, hsome⟩ := Option.ne_none_iff_exists'.mp hsome
      have := hkept.modern hmodern .failedPaths columns Table.noConfusion hsome
      simp [schema] at this
  | addCa => exact ⟨h.choose, hcolumns h.choose_spec.1, h.choose_spec.2⟩
  | dropIndexReferrer =>
      change dropRedundantIndexReferrer ∈ db'.migrations
      rw [hkept.migrations]
      exact h

omit [DecidableEq Pid] in
/-- A step that records no migration keeps the log. -/
theorem LogInv.mono (h : LogInv s) (hlog : s'.log = s.log ∨ s'.log = .created :: s.log)
    (hdone : ∀ m : Migration, HasDb s m.Done → HasDb s' m.Done) : LogInv s' := by
  have hcount : ∀ m, s'.log.count (.migrated m) = s.log.count (.migrated m) := by
    intro m
    rcases hlog with hlog | hlog <;> simp [hlog]
  refine ⟨fun m => by rw [hcount]; exact h.once m, fun m hm => hdone m (h.done m ?_)⟩
  rwa [← List.count_pos_iff, hcount, List.count_pos_iff] at hm

omit [DecidableEq Pid] in
/-- A migration is recorded that has not been done before. -/
theorem LogInv.migrated (h : LogInv s) {m : Migration} (hlog : s'.log = .migrated m :: s.log)
    (hnot : ¬ HasDb s m.Done) (hdone : HasDb s' m.Done)
    (hmono : ∀ m : Migration, HasDb s m.Done → HasDb s' m.Done) : LogInv s' where
  once m' := by
    have hold := h.once m'
    rw [hlog, List.count_cons]
    split
    · next heq =>
        rw [beq_iff_eq, Event.migrated.injEq] at heq
        subst heq
        rw [List.count_eq_zero.mpr fun hmem => hnot (h.done m hmem)]
    · exact hold
  done m' hm' := by
    rw [hlog, List.mem_cons, Event.migrated.injEq] at hm'
    rcases hm' with rfl | hold
    · exact hdone
    · exact hmono m' (h.done m' hold)

-- ============================================================================
-- Each call
-- ============================================================================

omit [DecidableEq Pid] in
/-- A read-only process never gets to where locks are taken. -/
theorem LockInv.takesLocks (h : LockInv readOnly s) (hp : (s.pc p).lockless = false) :
    readOnly p = false := by
  rw [← Bool.not_eq_true]
  intro hreadOnly
  rw [(h.holds p).lockless hreadOnly] at hp
  cases hp

omit [DecidableEq Pid] in
theorem LockInv.mem_shared (h : LockInv readOnly s) (hreadOnly : readOnly p = false)
    (hp : (s.pc p).shares = true) : p ∈ s.shared :=
  (h.holds p).shared.mpr ⟨hp, hreadOnly⟩

/-- There is no file `schema`. -/
theorem Inv.schemaMissing (h : Inv readOnly s) (hpc : s.pc p = .schemaExists)
    (hfile : s.schemaFile = none) : Inv readOnly (afterSchema readOnly s p 0) := by
  have hmodern : ∀ db, s.db = some db → db.Modern := by
    cases h.world with
    | new _ hmodern => exact hmodern
    | settled v _ _ hsome => simp [hfile] at hsome
    | creating _ hsome => simp [hfile] at hsome
    | migrating q hq =>
        -- a process that migrates knows that there is a file
        have hknows := h.knows q
        cases hqpc : s.pc q <;> rw [hqpc] at hq hknows <;> try cases hq
        · obtain ⟨v, -, -, -, hsome, -⟩ := hknows
          simp [hfile] at hsome
        · obtain ⟨v, -, -, -, hsome, -⟩ := hknows
          simp [hfile] at hsome
        · obtain ⟨v, -, -, -, hsome, -⟩ := hknows
          simp [hfile] at hsome
        · obtain ⟨hsome, -⟩ := hknows
          simp [hfile] at hsome
  -- a read-only process gives up, any other begins to create the store
  by_cases hreadOnly : readOnly p = true
  · have hold : afterSchema readOnly s p 0 = s.fail p .readOnlyMissing := by
      simp [afterSchema, hreadOnly, nixSchemaVersion]
    rw [hold]
    exact h.fail (by rw [hpc]; rfl) (Or.inr ⟨hreadOnly, Or.inr (Or.inl rfl)⟩)
  · rw [Bool.not_eq_true] at hreadOnly
    have hnew : afterSchema readOnly s p 0 =
        { s with db := some (s.db.getD Database.empty) }.setPc p (.create schema) := by
      simp [afterSchema, hreadOnly, nixSchemaVersion]
    have hdb : ∀ {P : Database → Prop}, HasDb s P →
        HasDb (afterSchema readOnly s p 0) P := by
      rintro P ⟨db, hdb, hP⟩
      exact ⟨db, by simp [hnew, State.setPc, hdb], hP⟩
    have hall : (s.db.getD Database.empty).Modern := by
      cases hsome : s.db with
      | none => exact Database.modern_empty
      | some db => exact hmodern db hsome
    refine h.changeShared (h.lock.mem_shared hreadOnly (by rw [hpc]; rfl))
      ?_ ⟨fun hne => absurd hfile hne, hdb, hdb, ?_⟩ (fun q rest => ?_)
      (show _ = Function.update s.pc p (.create schema) from ?_) ?_ ?_ ?_
    · rw [hnew]
      exact h.lock.keep rfl rfl rfl (by rw [hpc]; exact Or.inl rfl) (by rw [hpc]; rfl)
        (by simp [hreadOnly])
    · simp [hnew, State.setPc]
    · exact hdb
    · rw [hnew]
      rfl
    · rw [hnew]
      exact ⟨_, rfl, hall, [], rfl, by simp⟩
    · rw [hnew]
      exact .new hfile fun db hsome => by cases hsome; exact hall
    · exact h.log.mono (Or.inl (by simp [hnew, State.setPc])) fun m => hdb

/-- The version that is read is one that this program knows. -/
theorem Inv.schemaRead (h : Inv readOnly s) (hpc : s.pc p = .readSchema) {v : Nat} (h6 : 6 ≤ v)
    (h10 : v ≤ 10) (hfile : s.schemaFile ≠ none)
    (hcurrent : v = 10 → HasDb s fun db => db.HasVersion 10) :
    Inv readOnly (afterSchema readOnly s p v) := by
  have hbetween : (s.pc p).between = false := by rw [hpc]; rfl
  unfold afterSchema nixSchemaVersion
  by_cases hlt : v < 10
  · -- an older store is migrated, but not by a read-only process
    by_cases hreadOnly : readOnly p = true
    · rw [if_pos ⟨hreadOnly, by omega⟩, if_neg (by omega)]
      exact h.fail hbetween (Or.inr ⟨hreadOnly, Or.inr (Or.inr (Or.inl rfl))⟩)
    · rw [if_neg (fun hand => hreadOnly hand.1), if_neg (by omega), if_neg (by omega),
        if_pos (by omega), if_neg (by omega), if_neg (by omega)]
      exact h.setPc (Or.inl (by rw [hpc]; rfl)) (by rw [hpc]; rfl)
        (fun hro => absurd hro hreadOnly) hbetween hfile
  · obtain ⟨db, hdb, hversion⟩ := hcurrent (by omega)
    rw [if_neg (by omega), if_neg (by omega), if_neg (by omega), if_neg (by omega),
      if_neg (by rw [hdb]; exact Option.some_ne_none db)]
    by_cases hreadOnly : readOnly p = true
    · rw [if_pos hreadOnly]
      exact h.setPc (Or.inl (by rw [hpc]; rfl)) (by rw [hpc]; rfl) (fun _ => rfl) hbetween
        fun hfalse => by rw [hreadOnly] at hfalse; cases hfalse
    · rw [if_neg hreadOnly]
      exact h.setPc (Or.inl (by rw [hpc]; rfl)) (by rw [hpc]; rfl)
        (fun hro => absurd hro hreadOnly) hbetween ⟨db, hdb, hversion⟩

omit [DecidableEq Pid] in
/-- What `getSchema` may find in the file. -/
theorem Inv.schemaContents (h : Inv readOnly s) (hfile : s.schemaFile ≠ none)
    (hp : readOnly p = true ∨ p ∈ s.shared ∨
      (s.pc p).excludes = true ∧ (s.pc p).between = false) :
    (s.schemaFile = some [] ∧ Excused readOnly s p .corrupt) ∨
      ∃ v : Nat, 6 ≤ v ∧ v ≤ 10 ∧ s.schemaFile = some (decimal v) ∧
        (v = 10 → HasDb s fun db => db.HasVersion 10) ∧
        (readOnly p = true ∨ HasDb s fun db => db.HasVersion v) := by
  cases h.world with
  | new hnone => exact absurd hnone hfile
  | settled v h6 h10 hsome hdb =>
      exact Or.inr ⟨v, h6, h10, hsome, by rintro rfl; exact hdb, Or.inr hdb⟩
  | creating hlog hsome => exact Or.inl ⟨hsome, Or.inl ⟨rfl, hlog⟩⟩
  | migrating q hq =>
      -- whoever migrates keeps out every process that takes locks
      have hexcludes := Pc.excludes_of_between hq
      have hreadOnly : readOnly p = true := by
        rcases hp with hreadOnly | hshared | ⟨hexclusive, hbetween⟩
        · exact hreadOnly
        · have := (h.lock.holds q).exclusive.mpr hexcludes
          rw [h.lock.alone (by rw [this]; exact Option.some_ne_none q)] at hshared
          exact absurd hshared (Finset.notMem_empty p)
        · obtain rfl := h.lock.exclusive_unique hexclusive hexcludes
          rw [hbetween] at hq
          cases hq
      have hknows := h.knows q
      cases hqpc : s.pc q <;> rw [hqpc] at hq hknows <;> try cases hq
      · obtain ⟨v, -, h6, h10, hsome, hdb⟩ := hknows
        refine Or.inr ⟨v, h6, h10, hsome, ?_, Or.inl hreadOnly⟩
        rintro rfl
        exact hdb
      · obtain ⟨v, -, h6, h10, hsome, hdb⟩ := hknows
        refine Or.inr ⟨v, h6, h10, hsome, ?_, Or.inl hreadOnly⟩
        rintro rfl
        exact hdb
      · obtain ⟨v, -, h6, h10, hsome, hdb⟩ := hknows
        exact Or.inr ⟨v, h6, h10, hsome, fun _ => hdb, Or.inl hreadOnly⟩
      · exact Or.inl ⟨hknows.1, Or.inr ⟨hreadOnly, Or.inl rfl⟩⟩

/-- `getSchema`, under the shared lock if locks are taken. -/
theorem Inv.readSchema (h : Inv readOnly s) (hpc : s.pc p = .readSchema) :
    Inv readOnly (withSchema s p (afterSchema readOnly s p)) := by
  have hfile : s.schemaFile ≠ none := by
    have := h.knows p
    rwa [hpc] at this
  have hp : readOnly p = true ∨ p ∈ s.shared ∨
      (s.pc p).excludes = true ∧ (s.pc p).between = false := by
    cases hreadOnly : readOnly p with
    | false => exact Or.inr (Or.inl (h.lock.mem_shared hreadOnly (by rw [hpc]; rfl)))
    | true => exact Or.inl rfl
  unfold withSchema
  rcases h.schemaContents hfile hp with ⟨hempty, hexcused⟩ | ⟨v, h6, h10, hsome, hcurrent, -⟩
  · have hcorrupt : string2Int (s.schemaFile.getD []) = none := by
      rw [hempty]
      rfl
    rw [hcorrupt]
    exact h.fail (by rw [hpc]; rfl) hexcused
  · have hread : string2Int (s.schemaFile.getD []) = some (v : Int) := by
      rw [hsome]
      exact string2Int_version h6 h10
    rw [hread]
    exact h.schemaRead hpc h6 h10 hfile hcurrent

/-- `getSchema` once more, under the exclusive lock. -/
theorem Inv.readSchemaAgain (h : Inv readOnly s) (hpc : s.pc p = .readSchemaAgain) :
    Inv readOnly (withSchema s p fun curSchema => s.setPc p (.migrate8 curSchema)) := by
  have hfile : s.schemaFile ≠ none := by
    have := h.knows p
    rwa [hpc] at this
  have hbetween : (s.pc p).between = false := by rw [hpc]; rfl
  have hreadOnly := h.lock.takesLocks (p := p) (by rw [hpc]; rfl)
  unfold withSchema
  rcases h.schemaContents hfile (p := p) (Or.inr (Or.inr ⟨by rw [hpc]; rfl, hbetween⟩)) with
    ⟨hempty, hexcused⟩ | ⟨v, h6, h10, hsome, -, hdb⟩
  · have hcorrupt : string2Int (s.schemaFile.getD []) = none := by
      rw [hempty]
      rfl
    rw [hcorrupt]
    exact h.fail hbetween hexcused
  · have hread : string2Int (s.schemaFile.getD []) = some (v : Int) := by
      rw [hsome]
      exact string2Int_version h6 h10
    rw [hread]
    rw [or_iff_right (by rw [hreadOnly]; exact Bool.false_ne_true)] at hdb
    exact h.setPc (Or.inl (by rw [hpc]; rfl)) (by rw [hpc]; rfl) (by simp [hreadOnly]) hbetween
      ⟨v, rfl, h6, h10, hsome, hdb⟩

/-- One statement of `schema.sql`. -/
theorem Inv.createStatement (h : Inv readOnly s) {statement : Statement} {rest : List Statement}
    (hpc : s.pc p = .create (statement :: rest)) :
    Inv readOnly (s.onDb p [statement] fun db =>
      { s with db := some db }.setPc p (.create rest)) := by
  have hknows := h.knows p
  rw [hpc] at hknows
  obtain ⟨db, hdb, hmodern, before, happend, hmade⟩ := hknows
  have hreadOnly := h.lock.takesLocks (p := p) (by rw [hpc]; rfl)
  have hneeds : ∀ table ∈ statement.needs, db.columns table ≠ none := by
    intro table htable
    obtain ⟨st, hst, hmakes⟩ := schema_ordered happend htable
    exact hmade st hst table hmakes
  obtain ⟨db', hexec, hkept, hmakes⟩ := Database.exec_schema (by simp [← happend]) hneeds
  have hstep : (s.onDb p [statement] fun db =>
      { s with db := some db }.setPc p (.create rest)) =
      { s with db := some db' }.setPc p (.create rest) := by
    unfold State.onDb
    simp only [hdb, Database.transaction, List.foldlM_cons, hexec, List.foldlM_nil]
    rfl
  have hlift : ∀ {P Q : Database → Prop}, (P db → Q db') → HasDb s P →
      HasDb ({ s with db := some db' }.setPc p (.create rest)) Q := by
    rintro P Q hPQ ⟨d, hd, hP⟩
    rw [hdb] at hd
    cases hd
    exact ⟨db', rfl, hPQ hP⟩
  rw [hstep]
  refine h.changeShared (h.lock.mem_shared hreadOnly (by rw [hpc]; rfl))
    (h.lock.keep rfl rfl rfl (by rw [hpc]; exact Or.inl rfl) (by rw [hpc]; rfl)
      (by simp [hreadOnly]))
    ⟨id, hlift hkept.hasVersion, hlift fun hand => ⟨hkept.hasVersion hand.1, ?_⟩, fun _ => id⟩
    (fun q other => hlift ?_) rfl ⟨db', rfl, hkept.modern hmodern, before ++ [statement], ?_, ?_⟩
    ?_ (h.log.mono (Or.inl rfl) fun m => hlift (Migration.Done.kept hkept hmodern))
  · change dropRedundantIndexReferrer ∈ db'.migrations
    rw [hkept.migrations]
    exact hand.2
  · rintro ⟨hmodern, done, hdone, hall⟩
    refine ⟨hkept.modern hmodern, done, hdone, fun st hst table htable => ?_⟩
    rw [hkept.made table (hall st hst table htable)]
    exact hall st hst table htable
  · simpa using happend
  · intro st hst table htable
    rw [List.mem_append, List.mem_singleton] at hst
    rcases hst with hst | rfl
    · rw [hkept.made table (hmade st hst table htable)]
      exact hmade st hst table htable
    · exact hmakes table htable
  · cases h.world with
    | new hfile _ => exact .new hfile fun d hd => by cases hd; exact hkept.modern hmodern
    | settled v h6 h10 hfile hdb' =>
        obtain ⟨d, hd, hversion⟩ := hdb'
        rw [hdb] at hd
        cases hd
        -- `ValidPaths` has been made by `schema.sql`, so it has the last column
        have h10' : v = 10 := by
          by_contra hne
          have hmem : .createTable .validPaths validPathsColumns true ∈ schema := by decide
          have hcolumns := hmodern.columns_eq hmem (by rw [hversion.validPaths]; simp)
          exact hversion.done_iff.2.2.not.mpr (by omega) ⟨_, hcolumns, by decide⟩
        subst h10'
        exact .settled 10 (by omega) (by omega) hfile ⟨db', rfl, hkept.hasVersion hversion⟩
    | creating hlog hfile hdb' => exact .creating hlog hfile (hlift hkept.hasVersion hdb')
    | migrating q hq =>
        -- the shared lock is held, so nobody migrates
        have hexclusive := (h.lock.holds q).exclusive.mpr (Pc.excludes_of_between hq)
        exact absurd (h.lock.mem_shared hreadOnly (by rw [hpc]; rfl)) (by
          rw [h.lock.alone (by rw [hexclusive]; exact Option.some_ne_none q)]
          exact Finset.notMem_empty p)

/-- A new store's file is opened for writing, or written. -/
theorem Inv.writeNew (h : Inv readOnly s) (hp : (s.pc p).shares = true)
    (hreadOnly : readOnly p = false) {contents : Bytes} {log : List Event}
    (hlog : log = s.log ∨ log = .created :: s.log)
    (hpc : pc.shares = true) (hpc' : pc.excludes = false)
    (hknows : Knows readOnly { s with schemaFile := some contents, log := log } p pc)
    (hworld : World ({ s with schemaFile := some contents, log := log }.setPc p pc)) :
    Inv readOnly ({ s with schemaFile := some contents, log := log }.setPc p pc) := by
  have hexcludes : (s.pc p).excludes = false := by
    cases hpc : s.pc p <;> rw [hpc] at hp <;> first | rfl | cases hp
  have hsub : ∀ e ∈ s.log, e ∈ log := by
    intro e he
    rcases hlog with rfl | rfl
    · exact he
    · exact List.mem_cons_of_mem _ he
  refine h.changeShared (h.lock.mem_shared hreadOnly hp)
    (h.lock.keep rfl rfl rfl (Or.inl (hpc.trans hp.symm)) (hpc'.trans hexcludes.symm)
      (by simp [hreadOnly]))
    ⟨fun _ => Option.some_ne_none _, id, id, hsub⟩ (fun _ _ => id) rfl hknows hworld
    (h.log.mono hlog fun _ => id)

/-- A process with the exclusive lock writes to the file. -/
theorem Inv.writeAlone (h : Inv readOnly s) (hp : (s.pc p).excludes = true)
    (hpc : pc.excludes = true) (hpc' : pc.shares = false) {contents : Bytes}
    (hknows : Knows readOnly { s with schemaFile := some contents } p pc)
    (hworld : World ({ s with schemaFile := some contents }.setPc p pc)) :
    Inv readOnly ({ s with schemaFile := some contents }.setPc p pc) := by
  have hlockless : (s.pc p).lockless = false := by
    cases hpc : s.pc p <;> rw [hpc] at hp <;> first | rfl | cases hp
  have hshares : (s.pc p).shares = false := by
    cases hpc : s.pc p <;> rw [hpc] at hp <;> first | rfl | cases hp
  refine h.changeAlone hp
    (h.lock.keep rfl rfl rfl (Or.inl (hpc'.trans hshares.symm)) (hpc.trans hp.symm)
      (by simp [h.lock.takesLocks hlockless]))
    ⟨fun _ => Option.some_ne_none _, id, id, fun _ => id⟩ rfl hknows hworld
    (h.log.mono (Or.inl rfl) fun _ => id)

/-- A process with the exclusive lock changes the database: what the new one has
    to be. -/
structure Database.Advances (db db' : Database) : Prop where
  version : ∃ v v' : Int, v ≤ v' ∧ db.HasVersion v ∧ db'.HasVersion v'
  recorded : db.Recorded → db'.Recorded

theorem Database.Advances.hasVersion {db db' : Database} (h : db.Advances db')
    (hversion : db.HasVersion 10) : db'.HasVersion 10 := by
  obtain ⟨v, v', hle, hv, hv'⟩ := h.version
  have h10 : 10 ≤ v := hv.done_iff.2.2.mp (hversion.done_iff.2.2.mpr (by omega))
  refine ⟨?_, ?_, hv'.refs, hv'.derivationOutputs⟩
  · rw [hv'.validPaths, if_pos (by omega), if_pos (by omega), if_pos (by omega),
      if_pos (by omega)]
  · rw [hv'.failedPaths]
    omega

theorem Database.Advances.done {db db' : Database} (h : db.Advances db') {m : Migration}
    (hm : m.Done db) : m.Done db' := by
  obtain ⟨v, v', hle, hv, hv'⟩ := h.version
  exact hm.mono hv hv' hle h.recorded

/-- A change of the database by a process with the exclusive lock. -/
theorem Inv.alterAlone (h : Inv readOnly s) (hp : (s.pc p).excludes = true)
    (hpc : pc.excludes = true) (hpc' : pc.shares = false) {db db' : Database}
    (hdb : s.db = some db) (hadvances : db.Advances db') {log : List Event}
    (hlog : log = s.log ∨ ∃ m : Migration, log = .migrated m :: s.log ∧ ¬ m.Done db ∧ m.Done db')
    (hknows : Knows readOnly { s with db := some db', log := log } p pc)
    (hworld : World ({ s with db := some db', log := log }.setPc p pc)) :
    Inv readOnly ({ s with db := some db', log := log }.setPc p pc) := by
  have hlockless : (s.pc p).lockless = false := by
    cases hpc : s.pc p <;> rw [hpc] at hp <;> first | rfl | cases hp
  have hshares : (s.pc p).shares = false := by
    cases hpc : s.pc p <;> rw [hpc] at hp <;> first | rfl | cases hp
  have hlift : ∀ {P Q : Database → Prop}, (P db → Q db') → HasDb s P →
      HasDb ({ s with db := some db', log := log }.setPc p pc) Q := by
    rintro P Q hPQ ⟨d, hd, hP⟩
    rw [hdb] at hd
    cases hd
    exact ⟨db', rfl, hPQ hP⟩
  have hsub : ∀ e ∈ s.log, e ∈ log := by
    intro e he
    rcases hlog with rfl | ⟨m, rfl, -⟩
    · exact he
    · exact List.mem_cons_of_mem _ he
  refine h.changeAlone hp
    (h.lock.keep rfl rfl rfl (Or.inl (hpc'.trans hshares.symm)) (hpc.trans hp.symm)
      (by simp [h.lock.takesLocks hlockless]))
    ⟨id, hlift hadvances.hasVersion,
      hlift fun hand => ⟨hadvances.hasVersion hand.1, hadvances.recorded hand.2⟩, hsub⟩
    rfl hknows hworld ?_
  rcases hlog with rfl | ⟨m, rfl, hnot, hdone⟩
  · exact h.log.mono (Or.inl rfl) fun m => hlift hadvances.done
  · refine h.log.migrated rfl ?_ ⟨db', rfl, hdone⟩ fun m => hlift hadvances.done
    rintro ⟨d, hd, hm⟩
    rw [hdb] at hd
    cases hd
    exact hnot hm

theorem State.migrate_eq {db db' : Database} {m : Migration} {statements : List Statement}
    (hdb : s.db = some db) (hexec : db.transaction statements = .ok db') :
    s.migrate p m statements pc =
      { s with db := some db', log := .migrated m :: s.log }.setPc p pc := by
  unfold State.migrate State.onDb
  simp only [hdb, hexec]

/-- The migrations that go by the version in the file. -/
theorem Inv.migrate8 (h : Inv readOnly s) {curSchema : Int} (hpc : s.pc p = .migrate8 curSchema)
    (hlt : curSchema < 8) :
    Inv readOnly (s.migrate p .addUltimateAndSigs
      [.addColumn .validPaths .ultimate, .addColumn .validPaths .sigs] (.migrate9 curSchema)) := by
  have hknows := h.knows p
  rw [hpc] at hknows
  obtain ⟨v, rfl, h6, h10, hfile, db, hdb, hversion⟩ := hknows
  obtain ⟨db', hexec, hversion', hrows⟩ := hversion.addUltimateAndSigs hlt
  have hmax : max v 8 = 8 := by omega
  rw [State.migrate_eq hdb hexec]
  refine h.alterAlone (by rw [hpc]; rfl) rfl rfl hdb
    ⟨⟨v, 8, by omega, hversion, hversion'⟩, fun hrec => by unfold Database.Recorded; rwa [hrows]⟩
    (Or.inr ⟨_, rfl, fun hdone => ?_, hversion'.done_iff.1.mpr (by omega)⟩)
    ⟨v, rfl, h6, h10, hfile, db', rfl, by rw [hmax]; exact hversion'⟩
    (.migrating p (by simp [State.setPc, Pc.between]))
  have := hversion.done_iff.1.mp hdone
  omega

theorem Inv.migrate9 (h : Inv readOnly s) {curSchema : Int} (hpc : s.pc p = .migrate9 curSchema)
    (hlt : curSchema < 9) :
    Inv readOnly (s.migrate p .dropFailedPaths [.dropTable .failedPaths]
      (.migrate10 curSchema)) := by
  have hknows := h.knows p
  rw [hpc] at hknows
  obtain ⟨v, rfl, h6, h10, hfile, db, hdb, hversion⟩ := hknows
  obtain ⟨db', hexec, hversion', hrows⟩ := hversion.dropFailedPaths (by omega) (by omega)
  have hmax : max v 9 = 9 := by omega
  rw [State.migrate_eq hdb hexec]
  refine h.alterAlone (by rw [hpc]; rfl) rfl rfl hdb
    ⟨⟨_, 9, by omega, hversion, hversion'⟩, fun hrec => by unfold Database.Recorded; rwa [hrows]⟩
    (Or.inr ⟨_, rfl, fun hdone => ?_, hversion'.done_iff.2.1.mpr (by omega)⟩)
    ⟨v, rfl, h6, h10, hfile, db', rfl, by rw [hmax]; exact hversion'⟩
    (.migrating p (by simp [State.setPc, Pc.between]))
  have := hversion.done_iff.2.1.mp hdone
  omega

theorem Inv.migrate10 (h : Inv readOnly s) {curSchema : Int}
    (hpc : s.pc p = .migrate10 curSchema) (hlt : curSchema < 10) :
    Inv readOnly (s.migrate p .addCa [.addColumn .validPaths .ca]
      (.truncateMigrated curSchema)) := by
  have hknows := h.knows p
  rw [hpc] at hknows
  obtain ⟨v, rfl, h6, h10, hfile, db, hdb, hversion⟩ := hknows
  obtain ⟨db', hexec, hversion', hrows⟩ := hversion.addCa (by omega) (by omega)
  rw [State.migrate_eq hdb hexec]
  refine h.alterAlone (by rw [hpc]; rfl) rfl rfl hdb
    ⟨⟨_, 10, by omega, hversion, hversion'⟩, fun hrec => by unfold Database.Recorded; rwa [hrows]⟩
    (Or.inr ⟨_, rfl, fun hdone => ?_, hversion'.done_iff.2.2.mpr (by omega)⟩)
    ⟨v, rfl, h6, h10, hfile, db', rfl, hversion'⟩
    (.migrating p (by simp [State.setPc, Pc.between]))
  have := hversion.done_iff.2.2.mp hdone
  omega

omit [DecidableEq Pid] in
/-- A database of the current version is exchanged for another. -/
theorem World.alter (h : World s) {db db' : Database} (hdb : s.db = some db)
    (hversion : db.HasVersion 10) (hversion' : db'.HasVersion 10)
    (hs' : s'.schemaFile = s.schemaFile ∧ s'.db = some db') (hlog : ∀ e ∈ s.log, e ∈ s'.log)
    (hpcs : ∀ q, (s.pc q).between = true → s'.pc q = s.pc q) : World s' := by
  cases h with
  | new hfile _ =>
      exact .new (hs'.1.trans hfile) fun d hd => by
        rw [hs'.2] at hd
        cases hd
        exact hversion'.modern
  | settled v h6 h10 hfile hd =>
      obtain ⟨d, hd, hv⟩ := hd
      rw [hdb] at hd
      cases hd
      have h10' : v = 10 := by
        have := hv.done_iff.2.2.mp (hversion.done_iff.2.2.mpr le_rfl)
        omega
      subst h10'
      exact .settled 10 h6 h10 (hs'.1.trans hfile) ⟨db', hs'.2, hversion'⟩
  | creating hl hfile _ => exact .creating (hlog _ hl) (hs'.1.trans hfile) ⟨db', hs'.2, hversion'⟩
  | migrating q hq => exact .migrating q (by rw [hpcs q hq]; exact hq)

/-- A migration that the version says is done is passed over. -/
theorem Inv.skip (h : Inv readOnly s) (hp : (s.pc p).excludes = true)
    (hp' : (s.pc p).shares = false) (hlockless : (s.pc p).lockless = false)
    (hpc : pc.between = true) (hshares : pc.shares = false) (hknows : Knows readOnly s p pc) :
    Inv readOnly (s.setPc p pc) where
  lock := h.lock.keep rfl rfl rfl (Or.inl (hshares.trans hp'.symm))
    ((Pc.excludes_of_between hpc).trans hp.symm) (by simp [h.lock.takesLocks hlockless])
  knows q := by
    by_cases hq : q = p
    · subst hq
      simp only [State.setPc, Function.update_self]
      exact hknows.congr rfl rfl rfl
    · simp only [State.setPc, Function.update_of_ne hq]
      exact (h.knows q).congr rfl rfl rfl
  world := .migrating p (by simp [State.setPc, hpc])
  log := h.log.congr rfl rfl

/-- `upgradeDBSchema` makes its table. -/
theorem Inv.createMigrations (h : Inv readOnly s) (hpc : s.pc p = .createMigrations) :
    Inv readOnly (s.onDb p [.createTable .schemaMigrations {.migration} false] fun db =>
      { s with db := some db }.setPc p .readMigrationsAgain) := by
  have hknows := h.knows p
  rw [hpc] at hknows
  obtain ⟨db, hdb, hversion, hnone⟩ := hknows
  obtain ⟨db', hexec, hversion', hmade, hrows⟩ := hversion.createMigrations hnone
  have hadvances : db.Advances db' :=
    ⟨⟨10, 10, le_rfl, hversion, hversion'⟩, fun hrec => by unfold Database.Recorded; rwa [hrows]⟩
  have hstep : (s.onDb p [.createTable .schemaMigrations {.migration} false] fun db =>
      { s with db := some db }.setPc p .readMigrationsAgain) =
      { s with db := some db', log := s.log }.setPc p .readMigrationsAgain := by
    unfold State.onDb
    simp only [hdb, hexec]
  rw [hstep]
  refine h.alterAlone (by rw [hpc]; rfl) rfl rfl hdb hadvances (Or.inl rfl)
    ⟨db', rfl, hversion', hmade⟩ ?_
  refine h.world.alter hdb hversion hversion' ⟨rfl, rfl⟩ (fun _ => id) fun q hq => ?_
  refine Function.update_of_ne ?_ _ _
  rintro rfl
  rw [hpc] at hq
  cases hq

/-- `upgradeDBSchema` migrates, and records it. -/
theorem Inv.dropIndexReferrer (h : Inv readOnly s) (hpc : s.pc p = .dropIndexReferrer) :
    Inv readOnly (s.migrate p .dropIndexReferrer
      [.dropIndexIfExists .indexReferrer, .insertOrIgnoreMigration dropRedundantIndexReferrer]
      (.downgrade .migrations)) := by
  have hknows := h.knows p
  rw [hpc] at hknows
  obtain ⟨db, hdb, hversion, hmade, hnot⟩ := hknows
  obtain ⟨db', hexec, hversion', hrecorded⟩ := hversion.dropIndexReferrer hmade
  rw [State.migrate_eq hdb hexec]
  refine h.alterAlone (by rw [hpc]; rfl) rfl rfl hdb
    ⟨⟨10, 10, le_rfl, hversion, hversion'⟩, fun _ => hrecorded⟩
    (Or.inr ⟨_, rfl, hnot, hrecorded⟩) ⟨db', rfl, hversion', hrecorded⟩ ?_
  refine h.world.alter hdb hversion hversion' ⟨rfl, rfl⟩
    (fun _ => List.mem_cons_of_mem _) fun q hq => ?_
  refine Function.update_of_ne ?_ _ _
  rintro rfl
  rw [hpc] at hq
  cases hq

/-- What the constructor does next keeps the invariant. -/
theorem Inv.next (h : Inv readOnly s) (hs : OpenStore.next readOnly s p = some s') :
    Inv readOnly s' := by
  have hknows := h.knows p
  unfold OpenStore.next at hs
  cases hpc : s.pc p
  all_goals rw [hpc] at hknows
  all_goals simp only [hpc] at hs
  -- the locks: what a process knows is carried over each wait
  case idle =>
    cases hs
    cases hreadOnly : readOnly p with
    | true =>
        rw [if_pos rfl]
        exact h.setPc (Or.inr hreadOnly) (by rw [hpc]; rfl) (fun _ => rfl) (by rw [hpc]; rfl)
          trivial
    | false =>
        rw [if_neg Bool.false_ne_true]
        exact h.setPc (Or.inl (by rw [hpc]; rfl)) (by rw [hpc]; rfl) (by simp [hreadOnly])
          (by rw [hpc]; rfl) trivial
  case tryShared =>
    have hreadOnly := h.lock.takesLocks (p := p) (by rw [hpc]; rfl)
    split at hs
    · next hshare =>
        cases hs
        exact h.share hshare hreadOnly rfl rfl (by rw [hpc]; rfl) trivial
    · cases hs
      exact h.setPc (Or.inl (by rw [hpc]; rfl)) (by rw [hpc]; rfl) (by simp [hreadOnly])
        (by rw [hpc]; rfl) trivial
  case waitShared =>
    have hreadOnly := h.lock.takesLocks (p := p) (by rw [hpc]; rfl)
    obtain ⟨t, hshare, rfl⟩ := Option.map_eq_some_iff.mp hs
    exact h.share hshare hreadOnly rfl rfl (by rw [hpc]; rfl) trivial
  -- the file `schema`, and the creation of a store without one
  case schemaExists =>
    split at hs
    · next hfile =>
        cases hs
        exact h.schemaMissing hpc hfile
    · next hfile =>
        cases hs
        refine h.setPc (Or.inl (by rw [hpc]; rfl)) (by rw [hpc]; rfl) (fun _ => rfl)
          (by rw [hpc]; rfl) hfile
  case readSchema =>
    cases hs
    exact h.readSchema hpc
  case create rest =>
    have hreadOnly := h.lock.takesLocks (p := p) (by rw [hpc]; rfl)
    cases rest with
    | nil =>
        -- all of `schema.sql` has been executed, so the version is the current one
        cases hs
        obtain ⟨db, hdb, hmodern, before, hbefore, hmade⟩ := hknows
        rw [List.append_nil] at hbefore
        subst hbefore
        exact h.setPc (Or.inl (by rw [hpc]; rfl)) (by rw [hpc]; rfl) (by simp [hreadOnly])
          (by rw [hpc]; rfl) ⟨db, hdb, hmodern.hasVersion hmade⟩
    | cons statement rest =>
        cases hs
        exact h.createStatement hpc
  case truncate =>
    have hreadOnly := h.lock.takesLocks (p := p) (by rw [hpc]; rfl)
    cases hs
    exact h.writeNew (by rw [hpc]; rfl) hreadOnly (Or.inr rfl) rfl rfl
      ⟨List.mem_cons_self, Option.some_ne_none _, hknows⟩
      (.creating List.mem_cons_self rfl hknows)
  case write =>
    have hreadOnly := h.lock.takesLocks (p := p) (by rw [hpc]; rfl)
    cases hs
    exact h.writeNew (by rw [hpc]; rfl) hreadOnly (Or.inl rfl) rfl rfl
      hknows.2.2 (.settled 10 (by omega) (by omega) rfl hknows.2.2)
  -- the exclusive lock: what was read before is read again behind it
  case tryExclusive upgrade =>
    have hreadOnly := h.lock.takesLocks (p := p) (by rw [hpc]; rfl)
    split at hs
    · next hexclude =>
        cases hs
        cases upgrade <;>
          exact h.exclude hexclude hreadOnly rfl rfl (by rw [hpc]; rfl) hknows
    · cases hs
      cases upgrade <;>
        exact h.release rfl rfl (by simp [hreadOnly]) (by rw [hpc]; rfl) hknows
  case unlock upgrade =>
    have hreadOnly := h.lock.takesLocks (p := p) (by rw [hpc]; rfl)
    cases hs
    cases upgrade <;> exact h.release rfl rfl (by simp [hreadOnly]) (by rw [hpc]; rfl) hknows
  case waitExclusive upgrade =>
    have hreadOnly := h.lock.takesLocks (p := p) (by rw [hpc]; rfl)
    obtain ⟨t, hexclude, rfl⟩ := Option.map_eq_some_iff.mp hs
    cases upgrade <;> exact h.exclude hexclude hreadOnly rfl rfl (by rw [hpc]; rfl) hknows
  case schemaExistsAgain =>
    have hreadOnly := h.lock.takesLocks (p := p) (by rw [hpc]; rfl)
    rw [if_neg hknows] at hs
    cases hs
    exact h.setPc (Or.inl (by rw [hpc]; rfl)) (by rw [hpc]; rfl) (by simp [hreadOnly])
      (by rw [hpc]; rfl) hknows
  case readSchemaAgain =>
    cases hs
    exact h.readSchemaAgain hpc
  -- the migrations, each done or passed over by what the file said
  case migrate8 curSchema =>
    split at hs
    · next hlt =>
        cases hs
        exact h.migrate8 hpc hlt
    · next hge =>
        cases hs
        obtain ⟨v, rfl, h6, h10, hfile, hdb⟩ := hknows
        have hmax : max v 8 = v := by omega
        exact h.skip (by rw [hpc]; rfl) (by rw [hpc]; rfl) (by rw [hpc]; rfl) rfl rfl
          ⟨v, rfl, h6, h10, hfile, by rw [hmax]; exact hdb⟩
  case migrate9 curSchema =>
    split at hs
    · next hlt =>
        cases hs
        exact h.migrate9 hpc hlt
    · next hge =>
        cases hs
        obtain ⟨v, rfl, h6, h10, hfile, hdb⟩ := hknows
        have hmax : max v 9 = max v 8 := by omega
        exact h.skip (by rw [hpc]; rfl) (by rw [hpc]; rfl) (by rw [hpc]; rfl) rfl rfl
          ⟨v, rfl, h6, h10, hfile, by rw [hmax]; exact hdb⟩
  case migrate10 curSchema =>
    split at hs
    · next hlt =>
        cases hs
        exact h.migrate10 hpc hlt
    · next hge =>
        cases hs
        obtain ⟨v, rfl, h6, h10, hfile, hdb⟩ := hknows
        have hmax : max v 9 = 10 := by omega
        rw [hmax] at hdb
        exact h.skip (by rw [hpc]; rfl) (by rw [hpc]; rfl) (by rw [hpc]; rfl) rfl rfl
          ⟨v, rfl, h6, h10, hfile, hdb⟩
  -- the file catches up with the database
  case truncateMigrated curSchema =>
    cases hs
    obtain ⟨v, rfl, h6, h10, hfile, hdb⟩ := hknows
    exact h.writeAlone (by rw [hpc]; rfl) rfl rfl ⟨rfl, hdb⟩
      (.migrating p (by simp [State.setPc, Pc.between]))
  case writeMigrated =>
    cases hs
    exact h.writeAlone (by rw [hpc]; rfl) rfl rfl hknows.2
      (.settled 10 (by omega) (by omega) rfl hknows.2)
  case downgrade upgrade =>
    have hreadOnly := h.lock.takesLocks (p := p) (by rw [hpc]; rfl)
    cases hs
    cases upgrade <;> exact h.release rfl rfl (by simp [hreadOnly]) (by rw [hpc]; rfl) hknows
  case waitSharedAgain upgrade =>
    have hreadOnly := h.lock.takesLocks (p := p) (by rw [hpc]; rfl)
    obtain ⟨t, hshare, rfl⟩ := Option.map_eq_some_iff.mp hs
    cases upgrade with
    | legacy => exact h.share hshare hreadOnly rfl rfl (by rw [hpc]; rfl) hknows
    | migrations => exact h.share hshare hreadOnly rfl rfl (by rw [hpc]; rfl) fun _ => hknows
  -- `upgradeDBSchema`, first under the shared lock and then under the other
  case hasMigrations =>
    have hreadOnly := h.lock.takesLocks (p := p) (by rw [hpc]; rfl)
    obtain ⟨db, hdb, hversion⟩ := hknows
    simp only [hdb] at hs
    split at hs
    · cases hs
      exact h.setPc (Or.inl (by rw [hpc]; rfl)) (by rw [hpc]; rfl) (by simp [hreadOnly])
        (by rw [hpc]; rfl) ⟨db, hdb, hversion⟩
    · cases hs
      exact h.setPc (Or.inl (by rw [hpc]; rfl)) (by rw [hpc]; rfl) (by simp [hreadOnly])
        (by rw [hpc]; rfl) ⟨db, hdb, hversion⟩
  case readMigrations =>
    have hreadOnly := h.lock.takesLocks (p := p) (by rw [hpc]; rfl)
    obtain ⟨db, hdb, hversion⟩ := hknows
    simp only [hdb] at hs
    split at hs
    · next hrecorded =>
        cases hs
        exact h.setPc (Or.inl (by rw [hpc]; rfl)) (by rw [hpc]; rfl) (by simp [hreadOnly])
          (by rw [hpc]; rfl) fun _ => ⟨db, hdb, hversion, hrecorded⟩
    · cases hs
      exact h.setPc (Or.inl (by rw [hpc]; rfl)) (by rw [hpc]; rfl) (by simp [hreadOnly])
        (by rw [hpc]; rfl) ⟨db, hdb, hversion⟩
  case hasMigrationsAgain =>
    have hreadOnly := h.lock.takesLocks (p := p) (by rw [hpc]; rfl)
    obtain ⟨db, hdb, hversion⟩ := hknows
    simp only [hdb] at hs
    split at hs
    · next hnone =>
        cases hs
        exact h.setPc (Or.inl (by rw [hpc]; rfl)) (by rw [hpc]; rfl) (by simp [hreadOnly])
          (by rw [hpc]; rfl) ⟨db, hdb, hversion, hnone⟩
    · next hsome =>
        cases hs
        exact h.setPc (Or.inl (by rw [hpc]; rfl)) (by rw [hpc]; rfl) (by simp [hreadOnly])
          (by rw [hpc]; rfl) ⟨db, hdb, hversion, hsome⟩
  case createMigrations =>
    cases hs
    exact h.createMigrations hpc
  case readMigrationsAgain =>
    have hreadOnly := h.lock.takesLocks (p := p) (by rw [hpc]; rfl)
    obtain ⟨db, hdb, hversion, hmade⟩ := hknows
    simp only [hdb] at hs
    split at hs
    · next hrecorded =>
        cases hs
        exact h.setPc (Or.inl (by rw [hpc]; rfl)) (by rw [hpc]; rfl) (by simp [hreadOnly])
          (by rw [hpc]; rfl) ⟨db, hdb, hversion, hrecorded⟩
    · next hnot =>
        cases hs
        exact h.setPc (Or.inl (by rw [hpc]; rfl)) (by rw [hpc]; rfl) (by simp [hreadOnly])
          (by rw [hpc]; rfl) ⟨db, hdb, hversion, hmade, hnot⟩
  case dropIndexReferrer =>
    cases hs
    exact h.dropIndexReferrer hpc
  case prepare =>
    have hopens : Inv readOnly (s.setPc p .opened) :=
      h.setPc (Or.inl (by rw [hpc]; rfl)) (by rw [hpc]; rfl) (fun _ => rfl) (by rw [hpc]; rfl)
        hknows
    split at hs
    · -- a read-only process may find everything
      cases hs
      exact hopens
    · next hreadOnly =>
        obtain ⟨db, hdb, hversion, -⟩ := hknows (Bool.not_eq_true _ ▸ hreadOnly)
        simp only [hdb, hversion.prepares] at hs
        cases hs
        exact hopens
  case opened =>
    cases hs
    exact h.release rfl rfl (fun _ => rfl) (by rw [hpc]; rfl) trivial
  case failed e => cases hs

/-- A read-only process fails, whatever SQLite tells it. -/
theorem Inv.unprepared (h : Inv readOnly s) {e : SqlError}
    (hs : OpenStore.unprepared readOnly s p e = some s') : Inv readOnly s' := by
  unfold OpenStore.unprepared at hs
  split at hs
  · next hpc =>
      split at hs
      · next hreadOnly =>
          cases hs
          exact h.fail (by rw [hpc]; rfl)
            (Or.inr ⟨hreadOnly, Or.inr (Or.inr (Or.inr ⟨e, rfl⟩))⟩)
      · cases hs
  · cases hs

/-- A process is killed, but not midway. -/
theorem Inv.killed (h : Inv readOnly s) (hmidway : (s.pc p).midway = false) :
    Inv readOnly ((s.release p).setPc p .idle) := by
  cases hbetween : (s.pc p).between with
  | false => exact h.release rfl rfl (fun _ => rfl) hbetween trivial
  | true =>
      -- the file and the database agree as long as nothing has been migrated
      have hknows := h.knows p
      have hsettled : World { s with pc := Function.update s.pc p .idle } := by
        cases hpc : s.pc p <;> rw [hpc] at hbetween hknows hmidway <;> try cases hbetween
        -- past each migration the file said that it was not needed
        · obtain ⟨v, rfl, h6, h10, hfile, hdb⟩ := hknows
          have hge : 8 ≤ v := by simpa [Pc.midway] using hmidway
          rw [max_eq_left hge] at hdb
          exact .settled v h6 h10 hfile hdb
        · obtain ⟨v, rfl, h6, h10, hfile, hdb⟩ := hknows
          have hge : 9 ≤ v := by simpa [Pc.midway] using hmidway
          rw [max_eq_left hge] at hdb
          exact .settled v h6 h10 hfile hdb
        · obtain ⟨v, rfl, h6, h10, hfile, hdb⟩ := hknows
          have hge : 10 ≤ v := by simpa [Pc.midway] using hmidway
          obtain rfl : v = 10 := by omega
          exact .settled 10 h6 h10 hfile hdb
        · cases hmidway
      refine ⟨h.lock.release rfl rfl fun _ => rfl, fun q => ?_, ?_, h.log.congr rfl rfl⟩
      · simp only [State.setPc, State.release]
        by_cases hq : q = p
        · subst hq
          rw [Function.update_self]
          trivial
        · rw [Function.update_of_ne hq]
          exact (h.knows q).congr rfl rfl rfl
      · cases hsettled with
        | new hfile hdb => exact .new hfile hdb
        | settled v h6 h10 hfile hdb => exact .settled v h6 h10 hfile hdb
        | creating hlog hfile hdb => exact .creating hlog hfile hdb
        | migrating q hq => exact .migrating q hq

omit [DecidableEq Pid] in
theorem inv_initial (h : Initial s) : Inv readOnly s where
  lock := ⟨fun q => ⟨by simp [h.shared, h.pc, Pc.shares], by simp [h.exclusive, h.pc, Pc.excludes],
    fun _ => by rw [h.pc]; rfl⟩, fun _ => h.shared⟩
  knows q := by
    rw [h.pc]
    trivial
  world := by
    rcases h.store with ⟨hfile, hdb⟩ | ⟨v, db, h6, h10, hfile, hdb, hversion⟩
    · exact .new hfile fun db hsome => by rw [hdb] at hsome; cases hsome
    · exact .settled v h6 h10 hfile ⟨db, hdb, hversion⟩
  log := ⟨fun m => by simp [h.log], fun m hm => by simp [h.log] at hm⟩

theorem inv_step {a : Pid × Act} (h : Inv readOnly s) (hok : Undisturbed s a)
    (hs : (system readOnly).step s a = some s') : Inv readOnly s' := by
  obtain ⟨p, act⟩ := a
  cases act with
  | next => exact h.next hs
  | interrupted => exact absurd rfl hok.1
  | killed =>
      cases hs
      exact h.killed (hok.2 rfl)
  | unprepared e => exact h.unprepared hs

theorem inv_reachable (h : (system readOnly).Reachable Undisturbed s) : Inv readOnly s :=
  h.invariant (fun _ => inv_initial) fun _ _ _ => inv_step

end Moves

end OpenStore
end NixStore
