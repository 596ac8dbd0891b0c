/-
  NixStore.Store.OpenStore

  What the constructor of `LocalStore` does about the lock on the state directory
  and about the database schema (`getSchema`, `openDB` and `upgradeDBSchema` of
  `libstore/local-store.cc`, `schema.sql`), run by any number of processes on one
  state directory, one system call or transaction at a time.

  A process that opens the store keeps a shared lock on `big-lock` until it
  closes the store; one that has to change the schema needs the lock for itself.
  `flock` does not convert a lock in one step: a shared lock is lost when the
  exclusive one cannot be had, and an exclusive lock is given up before the shared
  one is asked for.

  A process that opens the store read-only takes no lock.  It opens the database
  file as one that nobody changes and does not look at the write-ahead log, so
  what it sees is not what the others see; here it may be anything.
-/

import NixStore.Lib.Transition
import NixStore.Util.Serialise
import Mathlib.Data.Finset.Basic

namespace NixStore
namespace OpenStore

-- ============================================================================
-- The statements that make and change the schema
-- ============================================================================

inductive Table where
  | validPaths
  | refs
  | derivationOutputs
  | failedPaths
  | schemaMigrations
deriving DecidableEq

inductive Column where
  | id
  | path
  | hash
  | registrationTime
  | deriver
  | narSize
  | ultimate
  | sigs
  | ca
  | referrer
  | reference
  | drv
  | migration
deriving DecidableEq

inductive Index where
  | indexReferrer
  | indexReference
  | indexDerivationOutputs
deriving DecidableEq

/-- The schema of a database, and the rows of `SchemaMigrations`. -/
structure Database where
  columns : Table → Option (Finset Column)
  indexes : Finset Index
  /-- Whether there is a trigger `DeleteSelfRefs`. -/
  deleteSelfRefs : Bool
  migrations : Finset String

/-- The database file that SQLite creates. -/
def Database.empty : Database where
  columns := fun _ => none
  indexes := ∅
  deleteSelfRefs := false
  migrations := ∅

inductive Statement where
  | createTable (table : Table) (columns : Finset Column) (ifNotExists : Bool)
  | createIndexIfNotExists (index : Index) (table : Table)
  | createDeleteSelfRefsIfNotExists
  | addColumn (table : Table) (column : Column)
  | dropTable (table : Table)
  | dropIndexIfExists (index : Index)
  | insertOrIgnoreMigration (name : String)
deriving DecidableEq

inductive SqlError where
  | tableExists (table : Table)
  | noSuchTable (table : Table)
  | duplicateColumn (column : Column)
  | noSuchColumn (table : Table)
  /-- What is in the file is no database, or not one that is whole. -/
  | malformed
deriving DecidableEq

namespace Database

def setColumns (db : Database) (table : Table) (columns : Option (Finset Column)) : Database :=
  { db with columns := Function.update db.columns table columns }

@[simp] theorem setColumns_self (db : Database) (table : Table)
    (columns : Option (Finset Column)) : (db.setColumns table columns).columns table = columns :=
  Function.update_self ..

theorem setColumns_of_ne (db : Database) {table other : Table} (columns : Option (Finset Column))
    (h : other ≠ table) : (db.setColumns table columns).columns other = db.columns other :=
  Function.update_of_ne h ..

/-- `sqlite3_exec` of one statement. -/
def exec (db : Database) : Statement → Except SqlError Database
  | .createTable table columns ifNotExists =>
      match db.columns table, ifNotExists with
      | none, _ => .ok (db.setColumns table (some columns))
      | some _, true => .ok db
      | some _, false => .error (.tableExists table)
  | .createIndexIfNotExists index table =>
      match db.columns table with
      | none => .error (.noSuchTable table)
      | some _ => .ok { db with indexes := insert index db.indexes }
  | .createDeleteSelfRefsIfNotExists =>
      match db.columns .validPaths with
      | none => .error (.noSuchTable .validPaths)
      | some _ => .ok { db with deleteSelfRefs := true }
  | .addColumn table column =>
      match db.columns table with
      | none => .error (.noSuchTable table)
      | some columns =>
          if column ∈ columns then .error (.duplicateColumn column)
          else .ok (db.setColumns table (some (insert column columns)))
  | .dropTable table =>
      match db.columns table with
      | none => .error (.noSuchTable table)
      | some _ => .ok (db.setColumns table none)
  | .dropIndexIfExists index => .ok { db with indexes := db.indexes.erase index }
  | .insertOrIgnoreMigration name =>
      match db.columns .schemaMigrations with
      | none => .error (.noSuchTable .schemaMigrations)
      | some _ => .ok { db with migrations := insert name db.migrations }

/-- A transaction: nothing happens when one of its statements fails. -/
def transaction (db : Database) (statements : List Statement) : Except SqlError Database :=
  statements.foldlM exec db

end Database

def baseColumns : Finset Column := {.id, .path, .hash, .registrationTime, .deriver, .narSize}

def validPathsColumns : Finset Column := baseColumns ∪ {.ultimate, .sigs, .ca}

def refsColumns : Finset Column := {.referrer, .reference}

def derivationOutputsColumns : Finset Column := {.drv, .id, .path}

/-- `schema.sql`. -/
def schema : List Statement := [
  .createTable .validPaths validPathsColumns true,
  .createTable .refs refsColumns true,
  .createIndexIfNotExists .indexReference .refs,
  .createDeleteSelfRefsIfNotExists,
  .createTable .derivationOutputs derivationOutputsColumns true,
  .createIndexIfNotExists .indexDerivationOutputs .derivationOutputs]

/-- The tables and columns that the prepared statements of `LocalStore` name. -/
def preparedStatements : List (Table × Finset Column) := [
  (.validPaths, {.path, .hash, .registrationTime, .deriver, .narSize, .ultimate, .sigs, .ca}),
  (.validPaths, {.narSize, .hash, .ultimate, .sigs, .ca, .path}),
  (.refs, {.referrer, .reference}),
  (.validPaths, {.id, .hash, .registrationTime, .deriver, .narSize, .ultimate, .sigs, .ca, .path}),
  (.validPaths, {.path, .id}),
  (.derivationOutputs, {.drv, .id, .path})]

/-- Whether a statement that names these columns can be prepared. -/
def Database.prepares (db : Database) (statement : Table × Finset Column) : Bool :=
  match db.columns statement.1 with
  | none => false
  | some columns => statement.2 ⊆ columns

/-- `nixSchemaVersion`. -/
def nixSchemaVersion : Int := 10

/-- The one migration of `upgradeDBSchema`. -/
def dropRedundantIndexReferrer : String := "20260309-drop-redundant-indexreferrer"

/-- `string2Int<int>`: an optional sign and digits, within the range of `int`. -/
def string2Int (s : Bytes) : Option Int :=
  let value (digits : Bytes) : Option Int :=
    if digits = [] ∨ ¬ digits.all (fun d => 0x30 ≤ d ∧ d ≤ 0x39) then none
    else some (digits.foldl (fun n d => 10 * n + (d.toNat - 0x30 : Int)) 0)
  let number := match s with
    | 0x2d :: digits => (value digits).map fun n => -n
    | 0x2b :: digits => value digits
    | digits => value digits
  number.filter fun n => -2147483648 ≤ n ∧ n < 2147483648

-- ============================================================================
-- Processes
-- ============================================================================

/-- Which of the two upgrades the exclusive lock is for. -/
inductive Upgrade where
  /-- The migrations that go by the version in the file `schema`. -/
  | legacy
  /-- `upgradeDBSchema`. -/
  | migrations
deriving DecidableEq

inductive OpenError where
  | corrupt
  | tooNew (schema : Int)
  | berkeleyDB
  | flatFile
  | cannotOpen
  | readOnlyMissing
  | readOnlyOutdated
  | sql (e : SqlError)
deriving DecidableEq

/-- The call that the constructor makes next. -/
inductive Pc where
  | idle
  /-- `lockFile(globalLock, ltRead, false)`. -/
  | tryShared
  /-- `lockFile(globalLock, ltRead, true)`. -/
  | waitShared
  /-- `getSchema`: `pathExists(schemaPath)`. -/
  | schemaExists
  /-- `getSchema`: `readFile(schemaPath)`. -/
  | readSchema
  /-- `openDB` with `create`: what is left of `schema.sql`. -/
  | create (rest : List Statement)
  /-- `writeFile(schemaPath, …)` of a new store opens the file. -/
  | truncate
  /-- It writes. -/
  | write
  /-- `lockFile(globalLock, ltWrite, false)`. -/
  | tryExclusive (upgrade : Upgrade)
  /-- `lockFile(globalLock, ltNone, false)`. -/
  | unlock (upgrade : Upgrade)
  /-- `lockFile(globalLock, ltWrite, true)`. -/
  | waitExclusive (upgrade : Upgrade)
  /-- The second `getSchema`. -/
  | schemaExistsAgain
  | readSchemaAgain
  /-- `if (curSchema < 8)`. -/
  | migrate8 (curSchema : Int)
  | migrate9 (curSchema : Int)
  | migrate10 (curSchema : Int)
  /-- `writeFile(schemaPath, …)` after the migrations opens the file. -/
  | truncateMigrated (curSchema : Int)
  | writeMigrated
  /-- `lockFile(globalLock, ltRead, true)` gives the exclusive lock up. -/
  | downgrade (upgrade : Upgrade)
  /-- It waits for the shared one. -/
  | waitSharedAgain (upgrade : Upgrade)
  /-- `upgradeDBSchema` with `dryRun`: `queryHasSchemaMigrations`. -/
  | hasMigrations
  /-- `querySchemaMigrations`. -/
  | readMigrations
  /-- `upgradeDBSchema` without `dryRun`. -/
  | hasMigrationsAgain
  | createMigrations
  | readMigrationsAgain
  | dropIndexReferrer
  /-- The prepared statements; a read-only process opens the database here. -/
  | prepare
  /-- The constructor has returned. -/
  | opened
  /-- It has thrown. -/
  | failed (e : OpenError)
deriving DecidableEq

/-- What has been done to a database, each item one transaction. -/
inductive Migration where
  | addUltimateAndSigs
  | dropFailedPaths
  | addCa
  | dropIndexReferrer
deriving DecidableEq

/-- What a run records. -/
inductive Event where
  /-- The file `schema` of a new store has been opened for writing. -/
  | created
  | migrated (m : Migration)
deriving DecidableEq

/-- The state directory, the locks on `big-lock`, and the processes. -/
structure State (Pid : Type) where
  /-- What is in the file `schema`. -/
  schemaFile : Option Bytes
  db : Option Database
  shared : Finset Pid
  exclusive : Option Pid
  pc : Pid → Pc
  log : List Event

variable {Pid : Type} [DecidableEq Pid]

namespace State

def setPc (s : State Pid) (p : Pid) (pc : Pc) : State Pid :=
  { s with pc := Function.update s.pc p pc }

/-- The locks of a process are gone. -/
def release (s : State Pid) (p : Pid) : State Pid :=
  { s with
    shared := s.shared.erase p
    exclusive := if s.exclusive = some p then none else s.exclusive }

/-- An exception closes `globalLock`. -/
def fail (s : State Pid) (p : Pid) (e : OpenError) : State Pid :=
  (s.release p).setPc p (.failed e)

/-- `flock` with `LOCK_SH`, if nobody else has the exclusive lock. -/
def share (s : State Pid) (p : Pid) : Option (State Pid) :=
  if s.exclusive = none ∨ s.exclusive = some p then
    some { s with shared := insert p s.shared, exclusive := none }
  else none

/-- `flock` with `LOCK_EX`, if nobody else has a lock. -/
def exclude (s : State Pid) (p : Pid) : Option (State Pid) :=
  if (s.exclusive = none ∨ s.exclusive = some p) ∧ s.shared ⊆ {p} then
    some { s with shared := ∅, exclusive := some p }
  else none

/-- A step on the open database; SQLite's error is thrown. -/
def onDb (s : State Pid) (p : Pid) (statements : List Statement)
    (next : Database → State Pid) : State Pid :=
  match s.db with
  | none => s.fail p .cannotOpen
  | some db =>
      match db.transaction statements with
      | .error e => s.fail p (.sql e)
      | .ok db' => next db'

/-- A migration: the transaction, and where the process is then. -/
def migrate (s : State Pid) (p : Pid) (m : Migration) (statements : List Statement) (pc : Pc) :
    State Pid :=
  s.onDb p statements fun db =>
    { s with db := some db, log := .migrated m :: s.log }.setPc p pc

end State

open State

variable (readOnly : Pid → Bool)

/-- Where `acquireWriteLock` leads. -/
def Upgrade.granted : Upgrade → Pc
  | .legacy => .schemaExistsAgain
  | .migrations => .hasMigrationsAgain

/-- What follows an upgrade. -/
def Upgrade.done : Upgrade → Pc
  | .legacy => .hasMigrations
  | .migrations => .prepare

/-- The constructor after the first `getSchema`. -/
def afterSchema (s : State Pid) (p : Pid) (curSchema : Int) : State Pid :=
  if readOnly p ∧ curSchema < nixSchemaVersion then
    s.fail p (if curSchema = 0 then .readOnlyMissing else .readOnlyOutdated)
  else if curSchema > nixSchemaVersion then s.fail p (.tooNew curSchema)
  else if curSchema = 0 then
    { s with db := some (s.db.getD Database.empty) }.setPc p (.create schema)
  else if curSchema < nixSchemaVersion then
    if curSchema < 5 then s.fail p .berkeleyDB
    else if curSchema < 6 then s.fail p .flatFile
    else s.setPc p (.tryExclusive .legacy)
  else if s.db = none then s.fail p .cannotOpen
  else s.setPc p (if readOnly p then .prepare else .hasMigrations)

/-- `getSchema` has opened the file: what it goes on with. -/
def withSchema (s : State Pid) (p : Pid) (next : Int → State Pid) : State Pid :=
  match string2Int (s.schemaFile.getD []) with
  | none => s.fail p .corrupt
  | some curSchema => next curSchema

/-- The next call of a process.  It waits where there is none. -/
def next (s : State Pid) (p : Pid) : Option (State Pid) :=
  match s.pc p with
  | .idle => some (s.setPc p (if readOnly p then .schemaExists else .tryShared))
  | .tryShared =>
      match s.share p with
      | some s' => some (s'.setPc p .schemaExists)
      | none => some (s.setPc p .waitShared)
  | .waitShared => (s.share p).map fun s' => s'.setPc p .schemaExists
  | .schemaExists =>
      if s.schemaFile = none then some (afterSchema readOnly s p 0)
      else some (s.setPc p .readSchema)
  | .readSchema => some (withSchema s p (afterSchema readOnly s p))
  | .create [] => some (s.setPc p .truncate)
  | .create (statement :: rest) =>
      some (s.onDb p [statement] fun db => { s with db := some db }.setPc p (.create rest))
  | .truncate =>
      some ({ s with schemaFile := some [], log := .created :: s.log }.setPc p .write)
  | .write =>
      some ({ s with schemaFile := some (decimal nixSchemaVersion.toNat) }.setPc p .hasMigrations)
  | .tryExclusive upgrade =>
      match s.exclude p with
      | some s' => some (s'.setPc p upgrade.granted)
      | none => some ((s.release p).setPc p (.unlock upgrade))
  | .unlock upgrade => some ((s.release p).setPc p (.waitExclusive upgrade))
  | .waitExclusive upgrade => (s.exclude p).map fun s' => s'.setPc p upgrade.granted
  | .schemaExistsAgain =>
      if s.schemaFile = none then some (s.setPc p (.migrate8 0))
      else some (s.setPc p .readSchemaAgain)
  | .readSchemaAgain => some (withSchema s p fun curSchema => s.setPc p (.migrate8 curSchema))
  | .migrate8 curSchema =>
      if curSchema < 8 then
        some (s.migrate p .addUltimateAndSigs
          [.addColumn .validPaths .ultimate, .addColumn .validPaths .sigs] (.migrate9 curSchema))
      else some (s.setPc p (.migrate9 curSchema))
  | .migrate9 curSchema =>
      if curSchema < 9 then
        some (s.migrate p .dropFailedPaths [.dropTable .failedPaths] (.migrate10 curSchema))
      else some (s.setPc p (.migrate10 curSchema))
  | .migrate10 curSchema =>
      if curSchema < 10 then
        some (s.migrate p .addCa [.addColumn .validPaths .ca] (.truncateMigrated curSchema))
      else some (s.setPc p (.truncateMigrated curSchema))
  | .truncateMigrated _ => some ({ s with schemaFile := some [] }.setPc p .writeMigrated)
  | .writeMigrated =>
      some ({ s with schemaFile := some (decimal nixSchemaVersion.toNat) }.setPc p
        (.downgrade .legacy))
  | .downgrade upgrade => some ((s.release p).setPc p (.waitSharedAgain upgrade))
  | .waitSharedAgain upgrade => (s.share p).map fun s' => s'.setPc p upgrade.done
  | .hasMigrations =>
      match s.db with
      | none => some (s.fail p .cannotOpen)
      | some db =>
          if db.columns .schemaMigrations = none then some (s.setPc p (.tryExclusive .migrations))
          else some (s.setPc p .readMigrations)
  | .readMigrations =>
      match s.db with
      | none => some (s.fail p .cannotOpen)
      | some db =>
          if dropRedundantIndexReferrer ∈ db.migrations then some (s.setPc p .prepare)
          else some (s.setPc p (.tryExclusive .migrations))
  | .hasMigrationsAgain =>
      match s.db with
      | none => some (s.fail p .cannotOpen)
      | some db =>
          if db.columns .schemaMigrations = none then some (s.setPc p .createMigrations)
          else some (s.setPc p .readMigrationsAgain)
  | .createMigrations =>
      some (s.onDb p [.createTable .schemaMigrations {.migration} false] fun db =>
        { s with db := some db }.setPc p .readMigrationsAgain)
  | .readMigrationsAgain =>
      match s.db with
      | none => some (s.fail p .cannotOpen)
      | some db =>
          if dropRedundantIndexReferrer ∈ db.migrations then
            some (s.setPc p (.downgrade .migrations))
          else some (s.setPc p .dropIndexReferrer)
  | .dropIndexReferrer =>
      some (s.migrate p .dropIndexReferrer
        [.dropIndexIfExists .indexReferrer, .insertOrIgnoreMigration dropRedundantIndexReferrer]
        (.downgrade .migrations))
  | .prepare =>
      -- how this ends otherwise for a read-only process is `unprepared`
      if readOnly p then some (s.setPc p .opened)
      else
        match s.db with
        | none => some (s.fail p .cannotOpen)
        | some db =>
            match preparedStatements.find? fun statement => !db.prepares statement with
            | some statement => some (s.fail p (.sql (.noSuchColumn statement.1)))
            | none => some (s.setPc p .opened)
  | .opened => some ((s.release p).setPc p .idle)
  | .failed _ => none

/-- What may happen to a process. -/
inductive Act where
  | next
  /-- A `flock` that waits returns `EINTR`: `lockFile` returns false, which
      nobody looks at. -/
  | interrupted
  /-- The process is killed. -/
  | killed
  /-- A read-only process does not find in the database file what it needs. -/
  | unprepared (e : SqlError)
deriving DecidableEq

/-- A wait for the lock that ends without it. -/
def interrupt (s : State Pid) (p : Pid) : Option (State Pid) :=
  match s.pc p with
  | .waitShared => some (s.setPc p .schemaExists)
  | .waitExclusive upgrade => some (s.setPc p upgrade.granted)
  | .waitSharedAgain upgrade => some (s.setPc p upgrade.done)
  | _ => none

/-- SQLite's answer to a read-only process, which sees the file without the
    write-ahead log, and maybe while somebody writes to it. -/
def unprepared (s : State Pid) (p : Pid) (e : SqlError) : Option (State Pid) :=
  match s.pc p with
  | .prepare => if readOnly p then some (s.fail p (.sql e)) else none
  | _ => none

/-- Whether the store has this version: the columns that it had then, and what
    later versions dropped. -/
structure Database.HasVersion (db : Database) (v : Int) : Prop where
  validPaths : db.columns .validPaths = some (baseColumns ∪
    (if 8 ≤ v then {.ultimate, .sigs} else ∅) ∪ if 10 ≤ v then {.ca} else ∅)
  failedPaths : db.columns .failedPaths = none ↔ 9 ≤ v
  refs : db.columns .refs = some refsColumns
  derivationOutputs : db.columns .derivationOutputs = some derivationOutputsColumns

/-- A state directory without a store, or with one that this program can open. -/
structure Initial (s : State Pid) : Prop where
  store : (s.schemaFile = none ∧ s.db = none) ∨
    ∃ (v : Nat) (db : Database), 6 ≤ v ∧ v ≤ 10 ∧ s.schemaFile = some (decimal v) ∧
      s.db = some db ∧ db.HasVersion v
  shared : s.shared = ∅
  exclusive : s.exclusive = none
  pc : ∀ p, s.pc p = .idle
  log : s.log = []

/-- Any number of processes, taking their steps in any order. -/
def system : System (State Pid) (Pid × Act) where
  init := Initial
  step := fun s a =>
    match a.2 with
    | .next => next readOnly s a.1
    | .interrupted => interrupt s a.1
    | .killed => some ((s.release a.1).setPc a.1 .idle)
    | .unprepared e => unprepared readOnly s a.1 e

/-- Whether a process has begun the migrations that go by the version in the file
    `schema`, and has not finished. -/
def Pc.midway : Pc → Bool
  | .migrate9 curSchema => curSchema < 8
  | .migrate10 curSchema => curSchema < 9
  | .truncateMigrated curSchema => curSchema < 10
  | .writeMigrated => true
  | _ => false

/-- No wait for the lock is interrupted, and no process is killed midway. -/
def Undisturbed (s : State Pid) (a : Pid × Act) : Prop :=
  a.2 ≠ .interrupted ∧ (a.2 = .killed → (s.pc a.1).midway = false)

end OpenStore
end NixStore
