/-
  NixStore.Lib.Directories

  Directories as somebody with a descriptor sees them: a descriptor stands for
  an inode, whatever happens to the names that lead to it, and a lookup of one
  name in it shows what is there at that instant.

  A history says what every inode is at each instant; between two instants
  anybody may have changed anything.  `Leads` and `Finds` are where lookups, one
  after another, lead without following a symbolic link.  They never leave a set
  of inodes that no directory of it leads out of (`Finds.confined`).
-/

import NixStore.Lib.SortedMap

namespace NixStore

/-- What an inode is. -/
inductive Inode (ν τ α : Type) where
  | directory (entries : List (ν × Nat))
  | symlink (target : τ)
  | object (contents : α)

namespace Inode

variable {ν τ α : Type}

def isDirectory : Inode ν τ α → Bool
  | .directory _ => true
  | _ => false

def isSymlink : Inode ν τ α → Bool
  | .symlink _ => true
  | _ => false

/-- The entries of a directory. -/
def entries : Inode ν τ α → List (ν × Nat)
  | .directory l => l
  | _ => []

/-- The inode that a name of a directory stands for. -/
def child [DecidableEq ν] (i : Inode ν τ α) (name : ν) : Option Nat :=
  match i with
  | .directory entries => SortedMap.find? name entries
  | _ => none

/-- A directory without an entry. -/
def without [DecidableEq ν] (i : Inode ν τ α) (name : ν) : Inode ν τ α :=
  match i with
  | .directory entries => .directory (entries.filter fun e => e.1 ≠ name)
  | other => other

@[simp] theorem isDirectory_without [DecidableEq ν] (i : Inode ν τ α) (name : ν) :
    (i.without name).isDirectory = i.isDirectory := by
  cases i <;> rfl

theorem child_without [DecidableEq ν] (i : Inode ν τ α) (name name' : ν) :
    (i.without name).child name' = if name' = name then none else i.child name' := by
  cases i with
  | directory entries =>
      change SortedMap.find? name' (entries.filter fun e => e.1 ≠ name) = _
      induction entries with
      | nil => split <;> rfl
      | cons e entries ih =>
          by_cases he : e.1 = name
          · rw [List.filter_cons_of_neg (by simpa using he), ih]
            split
            · rfl
            · next hne =>
                change _ = SortedMap.find? name' (e :: entries)
                rw [SortedMap.find?, if_neg (fun heq => hne (heq.symm.trans he))]
                rfl
          · rw [List.filter_cons_of_pos (by simpa using he), SortedMap.find?, ih]
            change _ = if name' = name then none else SortedMap.find? name' (e :: entries)
            rw [SortedMap.find?]
            by_cases hn : name' = name
            · rw [if_pos hn, if_pos hn, if_neg (fun heq => he (heq.trans hn))]
            · rw [if_neg hn, if_neg hn]
              rfl
  | symlink _ | object _ =>
      split <;> rfl

theorem isDirectory_of_child [DecidableEq ν] {i : Inode ν τ α} {name : ν} {j : Nat}
    (h : i.child name = some j) : i.isDirectory = true := by
  cases i with
  | directory _ => rfl
  | symlink _ | object _ => cases h

end Inode

/-- What every inode is. -/
abbrev Inodes (ν τ α : Type) := Nat → Inode ν τ α

/-- What every inode is at each instant. -/
abbrev History (ν τ α : Type) := Nat → Inodes ν τ α

variable {ν τ α : Type} [DecidableEq ν]

/-- Lookups from a directory on, not before `t₀`, have led to the directory `d`:
    at `t` the last of them found it, and it was a directory. -/
inductive Leads (h : History ν τ α) (t₀ dir : Nat) : List ν → Nat → Nat → Prop
  | here : Leads h t₀ dir [] t₀ dir
  | down {path : List ν} {t t' d e : Nat} {name : ν} : Leads h t₀ dir path t d → t ≤ t' →
      (h t' d).child name = some e → (h t' e).isDirectory = true →
      Leads h t₀ dir (path ++ [name]) t' e

/-- The directory that lookups have led to had this entry later on, and what it
    stood for met a condition. -/
structure Finds (h : History ν τ α) (P : Inode ν τ α → Prop) (t₀ dir : Nat) (path : List ν)
    (i : Nat) : Prop where
  found : ∃ init name t d t', path = init ++ [name] ∧ Leads h t₀ dir init t d ∧ t ≤ t' ∧
    (h t' d).child name = some i ∧ P (h t' i)

/-- No directory of a set leads out of it. -/
def Confines (h : History ν τ α) (S : Nat → Prop) : Prop :=
  ∀ t i, S i → ∀ name j, (h t i).child name = some j → S j

section Confined

variable {h : History ν τ α} {P : Inode ν τ α → Prop} {S : Nat → Prop} {t₀ dir : Nat}
  {path : List ν}

theorem Leads.confined {t d : Nat} (hl : Leads h t₀ dir path t d) (hS : Confines h S)
    (hdir : S dir) : S d := by
  induction hl with
  | here => exact hdir
  | down _ _ hchild _ ih => exact hS _ _ ih _ _ hchild

/-- Who starts in a set that no directory of it leads out of stays in it. -/
theorem Finds.confined {i : Nat} (hf : Finds h P t₀ dir path i) (hS : Confines h S)
    (hdir : S dir) : S i := by
  obtain ⟨_, _, _, _, _, _, hleads, _, hchild, _⟩ := hf.found
  exact hS _ _ (hleads.confined hS hdir) _ _ hchild

theorem Finds.of_child {init : List ν} {name : ν} {t d t' i : Nat} (hl : Leads h t₀ dir init t d)
    (ht : t ≤ t') (hchild : (h t' d).child name = some i) (hP : P (h t' i)) :
    Finds h P t₀ dir (init ++ [name]) i :=
  ⟨init, name, t, d, t', rfl, hl, ht, hchild, hP⟩

end Confined

/-- The inode that a path leads to when nothing changes. -/
def lookup (fs : Inodes ν τ α) : Nat → List ν → Option Nat
  | dir, [] => some dir
  | dir, name :: rest => ((fs dir).child name).bind fun i => lookup fs i rest

theorem lookup_append (fs : Inodes ν τ α) (dir : Nat) (p q : List ν) :
    lookup fs dir (p ++ q) = (lookup fs dir p).bind fun i => lookup fs i q := by
  induction p generalizing dir with
  | nil => rfl
  | cons name rest ih =>
      simp only [List.cons_append, lookup, Option.bind_assoc]
      congr 1
      funext i
      exact ih i

theorem lookup_concat (fs : Inodes ν τ α) (dir : Nat) (p : List ν) (name : ν) :
    lookup fs dir (p ++ [name]) = (lookup fs dir p).bind fun i => (fs i).child name := by
  rw [lookup_append]
  congr 1
  funext i
  simp only [lookup]
  cases (fs i).child name <;> rfl

/-- Nothing changes: lookups lead where the path leads. -/
theorem Leads.lookup {fs : Inodes ν τ α} {t₀ dir t d : Nat} {path : List ν}
    (hl : Leads (fun _ => fs) t₀ dir path t d) : lookup fs dir path = some d := by
  induction hl with
  | here => rfl
  | down _ _ hchild _ ih =>
      rw [lookup_concat, ih, Option.bind_some]
      exact hchild

theorem Finds.lookup {fs : Inodes ν τ α} {P : Inode ν τ α → Prop} {t₀ dir i : Nat} {path : List ν}
    (hf : Finds (fun _ => fs) P t₀ dir path i) : lookup fs dir path = some i ∧ P (fs i) := by
  obtain ⟨init, name, _, _, _, rfl, hleads, _, hchild, hP⟩ := hf.found
  refine ⟨?_, hP⟩
  rw [lookup_concat, hleads.lookup, Option.bind_some]
  exact hchild

end NixStore
