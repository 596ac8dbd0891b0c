/-
  NixStore.Store.OpenStoreRuns

  What every interleaving of processes that open one store comes to: it is safe
  (`open_safe`), and it never leaves the store so that a process cannot open it
  (`open_possible`).
-/

import NixStore.Store.OpenStoreInv
import Mathlib.Data.Finset.Option
import Mathlib.Data.Finset.Card

namespace NixStore
namespace OpenStore

variable {Pid : Type} [DecidableEq Pid] {readOnly : Pid → Bool}

-- ============================================================================
-- What holds in every run
-- ============================================================================

namespace Sample

/-- The database of a store of version 7. -/
def oldDb : Database where
  columns
    | .validPaths => some baseColumns
    | .refs => some refsColumns
    | .derivationOutputs => some derivationOutputsColumns
    | .failedPaths => some {.path}
    | .schemaMigrations => none
  indexes := {.indexReferrer, .indexReference, .indexDerivationOutputs}
  deleteSelfRefs := true
  migrations := ∅

def old : State Bool where
  schemaFile := some (decimal 7)
  db := some oldDb
  shared := ∅
  exclusive := none
  pc := fun _ => .idle
  log := []

end Sample

/-- How many calls a process has left at most. -/
def Pc.rank : Pc → Nat
  | .failed _ => 0
  | .opened => 1
  | .prepare => 2
  | .waitSharedAgain .migrations => 3
  | .downgrade .migrations => 4
  | .dropIndexReferrer => 5
  | .readMigrationsAgain => 6
  | .createMigrations => 7
  | .hasMigrationsAgain => 8
  | .waitExclusive .migrations => 9
  | .unlock .migrations => 10
  | .tryExclusive .migrations => 11
  | .readMigrations => 12
  | .hasMigrations => 13
  | .waitSharedAgain .legacy | .write => 14
  | .downgrade .legacy | .truncate => 15
  | .create rest => 16 + rest.length
  | .writeMigrated => 16
  | .truncateMigrated _ => 17
  | .migrate10 _ => 18
  | .migrate9 _ => 19
  | .migrate8 _ => 20
  | .readSchemaAgain => 21
  | .schemaExistsAgain => 22
  | .waitExclusive .legacy => 23
  | .unlock .legacy => 24
  | .tryExclusive .legacy => 25
  | .readSchema => 26
  | .schemaExists => 27
  | .waitShared => 28
  | .tryShared => 29
  | .idle => 30

/-- Whether a process at this place may have to wait for others. -/
def Pc.waits : Pc → Bool
  | .waitShared | .waitExclusive _ | .waitSharedAgain _ => true
  | _ => false

section Progress

variable {s s' : State Pid} {p q : Pid}

/-- Where the others are is left alone, and the process comes closer to its end. -/
structure Advances (s : State Pid) (p : Pid) (bound : Nat) (s' : State Pid) : Prop where
  others : ∀ q, q ≠ p → s'.pc q = s.pc q
  rank : (s'.pc p).rank < bound

end Progress

end OpenStore
end NixStore
