/-
  NixStore.Util.AccessorCalls

  The member functions of `PosixDirectorySourceAccessor` are put together from a
  few steps: what holds of these steps, and goes through from programs to a
  program made of them, holds of every member function (`Closed`).
-/

import NixStore.Util.PosixSourceAccessor

namespace NixStore
namespace PosixAccessor

open FileSystemAt Related

/-- A property of programs that the steps of the member functions have, for
    paths of some kind, and that programs inherit from their parts. -/
structure Closed (d : Disk) (haveOpenat2 : Bool) (P : NodePath → Prop)
    (C : ∀ {α : Type}, AccessM α → Prop) : Prop where
  ret : ∀ {α : Type} (x : α), C (pure x)
  raise : ∀ {α : Type} (e : AccessError), C (throw e : AccessM α)
  seq : ∀ {α β : Type} {x : AccessM α} {f : α → AccessM β}, C x → (∀ y, C (f y)) → C (x >>= f)
  mapError : ∀ {α : Type} {x : AccessM α} (f : AccessError → AccessError), C x → C (mapError f x)
  getAccessor : ∀ a, C (getAccessor a)
  maybeUpdateMtime : ∀ a seenMTime, C (maybeUpdateMtime a seenMTime)
  fstat : ∀ i, C (fstat d i)
  fstatat : ∀ dirFd name, C (fstatat d dirFd name)
  descriptorToPath : ∀ i, C (descriptorToPath d i)
  reopen : ∀ dirFd, C (reopen d dirFd)
  readdir : ∀ dirFd, C (readdir d dirFd)
  openLastAt : ∀ acc parentFd path flags, C (openLastAt d haveOpenat2 acc parentFd path flags)
  openParentAndUpsert : ∀ a path ignoreMissing, P path →
    C (openParentAndUpsert d haveOpenat2 a path ignoreMissing)

namespace Closed

variable {d : Disk} {haveOpenat2 : Bool} {P : NodePath → Prop}
  {C : ∀ {α : Type}, AccessM α → Prop} {a : Nat} {path : NodePath}

theorem cond {α : Type} {c : Prop} [Decidable c] {x y : AccessM α} (hx : C x) (hy : C y) :
    C (if c then x else y) := by
  split
  · exact hx
  · exact hy

theorem maybeLstat_of (h : Closed d haveOpenat2 P C) (hpath : P path) :
    C (PosixAccessor.maybeLstat d haveOpenat2 a path) := by
  refine h.seq (h.getAccessor a) fun acc => cond ?_ ?_
  · exact h.seq (h.fstat _) fun st => h.seq (h.maybeUpdateMtime a _) fun _ => h.ret _
  · refine h.seq (h.openParentAndUpsert a path true hpath) fun parentFd => ?_
    cases parentFd with
    | none => exact h.ret _
    | some parentFd =>
        refine h.seq (h.fstatat _ _) fun st => ?_
        cases st with
        | ok st => exact h.seq (h.maybeUpdateMtime a _) fun _ => h.ret _
        | error e =>
            cases e with
            | noent => exact h.ret _
            | notdir | loop | exist | isdir | other => exact h.raise _

theorem readFile_of (h : Closed d haveOpenat2 P C) (hpath : P path) :
    C (PosixAccessor.readFile d haveOpenat2 a path) := by
  refine h.seq (h.getAccessor a) fun acc => cond (h.raise _) ?_
  refine h.seq (h.openParentAndUpsert a path false hpath) fun parentFd => ?_
  cases parentFd with
  | none => exact h.raise _
  | some parentFd =>
      refine h.seq (h.openLastAt acc parentFd path fileFlags) fun opened => ?_
      cases opened with
      | symlinkNotAllowed p => exact h.raise _
      | failed e => cases e <;> exact h.raise _
      | sysError code => exact h.raise _
      | fd i =>
          refine h.seq (h.fstat i) fun st => ?_
          obtain ⟨inode, mtime⟩ := st
          cases inode with
          | directory _ => exact h.raise _
          | symlink _ => exact h.raise _
          | object leaf =>
              cases leaf with
              | regular _ contents => exact h.seq (h.maybeUpdateMtime a _) fun _ => h.ret _
              | special _ => exact h.raise _

theorem openSubdirectory_of (h : Closed d haveOpenat2 P C) (hpath : P path) :
    C (PosixAccessor.openSubdirectory d haveOpenat2 a path) := by
  refine h.seq (h.getAccessor a) fun acc => cond ?_ ?_
  · refine h.seq (h.reopen _) fun r => ?_
    cases r with
    | ok i => exact h.ret _
    | error e => exact h.raise _
  · refine h.seq (h.openParentAndUpsert a path false hpath) fun parentFd => ?_
    cases parentFd with
    | none => exact h.raise _
    | some parentFd =>
        refine h.seq (h.openLastAt acc parentFd path directoryFlags) fun opened => ?_
        cases opened with
        | fd i => exact h.ret _
        | symlinkNotAllowed p => exact h.raise _
        | failed e => cases e <;> exact h.raise _
        | sysError code => exact h.raise _

theorem readDirectory_of (h : Closed d haveOpenat2 P C) (hpath : P path) :
    C (PosixAccessor.readDirectory d haveOpenat2 a path) := by
  refine h.seq (h.getAccessor a) fun acc => h.mapError _ ?_
  refine h.seq (h.openSubdirectory_of hpath) fun i => h.seq (h.readdir i) fun entries => ?_
  cases entries with
  | some entries => exact h.ret _
  | none => exact h.raise _

theorem readLink_of (h : Closed d haveOpenat2 P C) (hpath : P path) :
    C (PosixAccessor.readLink d haveOpenat2 a path) := by
  refine h.seq (h.getAccessor a) fun acc => h.mapError _ (cond (h.raise _) ?_)
  refine h.seq (h.openParentAndUpsert a path false hpath) fun parentFd => ?_
  cases parentFd with
  | none => exact h.raise _
  | some parentFd =>
      refine h.seq (h.seq (h.fstatat parentFd _) fun st => h.ret _) fun target => ?_
      cases target with
      | error e => exact h.seq (h.descriptorToPath parentFd) fun dir => h.raise _
      | ok target =>
          cases target with
          | some target => exact h.ret _
          | none => exact h.raise _

end Closed
end PosixAccessor
end NixStore
