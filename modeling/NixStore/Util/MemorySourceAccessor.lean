/-
  NixStore.Util.MemorySourceAccessor

  File-system objects as `libutil/memory-source-accessor.{hh,cc}` keeps them
  in memory (`fso::VariantT<std::string, true>`), and
  `MemorySourceAccessor::open`, the one function through which a
  `MemorySink` creates and finds nodes.

  A directory is its `std::map`, read from begin to end.  A `CanonPath` is
  the list of its components.
-/

import NixStore.Util.Serialise
import NixStore.Lib.SortedMap

namespace NixStore

open SortedMap

/-- The components of a `CanonPath`, outermost first. -/
abbrev NodePath := List Bytes

/-- `MemorySourceAccessor::File`. -/
inductive File where
  | regular (executable : Bool) (contents : Bytes)
  | directory (entries : List (Bytes × File))
  | symlink (target : Bytes)
deriving Repr

/-- `SourceAccessor::showPath` with an empty display prefix. -/
def showPath (path : NodePath) : String :=
  if path = [] then "/" else String.join (path.map fun name => "/" ++ showBytes name)

namespace File

/-! ## Looking nodes up -/

/-- The node at a path. -/
def at? : NodePath → File → Option File
  | [], cur => some cur
  | name :: rest, .directory entries => (find? name entries).bind (at? rest)
  | _ :: _, _ => none

/-- Change the node at a path in place: what a write through the pointer that
    `open` returned does. -/
def modifyAt (g : File → File) : NodePath → File → File
  | [], cur => g cur
  | name :: rest, .directory entries => .directory (adjust name (modifyAt g rest) entries)
  | _ :: _, cur => cur

/-- `create` below the directories that `open` makes on the way to it. -/
def mkPath (create : File) : NodePath → File
  | [] => create
  | name :: rest => .directory [(name, mkPath create rest)]

/-- `MemorySourceAccessor::open(path, create)` below an existing root: the
    tree afterwards and the node at `path`.  `walked` is the part of the path
    already followed, for the messages. -/
def openCreate (create : File) : NodePath → NodePath → File → Except Error (File × File)
  | _, [], cur => .ok (cur, cur)
  | walked, _ :: _, .symlink _ => .error (.error s!"file '{showPath walked}' is a symlink")
  | walked, _ :: _, .regular .. => .error (.error s!"file '{showPath walked}' is not a directory")
  | walked, name :: rest, .directory entries =>
      match find? name entries with
      | some f => do
          let (f', found) ← openCreate create (walked ++ [name]) rest f
          pure (.directory (adjust name (fun _ => f') entries), found)
      | none =>
          -- The missing component becomes a directory, and so does every later
          -- one; the last of them is then overwritten with `create`.
          .ok (.directory ((emplace name (mkPath create rest) entries).getD entries), create)

/-! ## Changing the node at a path -/

theorem at?_append (p q : NodePath) (T : File) :
    at? (p ++ q) T = (at? p T).bind (at? q) := by
  induction p generalizing T with
  | nil => rfl
  | cons name rest ih =>
      cases T with
      | regular x c => rfl
      | symlink t => rfl
      | directory entries =>
          simp only [List.cons_append, at?]
          cases find? name entries with
          | none => rfl
          | some f => exact ih f

theorem at?_modifyAt {g : File → File} {p : NodePath} {T f : File} (h : at? p T = some f) :
    at? p (modifyAt g p T) = some (g f) := by
  induction p generalizing T with
  | nil => simp only [at?, Option.some.injEq] at h; simp [at?, modifyAt, h]
  | cons name rest ih =>
      cases T with
      | regular x c => cases h
      | symlink t => cases h
      | directory entries =>
          simp only [at?, Option.bind_eq_some_iff] at h
          obtain ⟨child, hchild, hrest⟩ := h
          simp only [modifyAt, at?, find?_adjust_self hchild, Option.bind_some]
          exact ih hrest

theorem modifyAt_modifyAt (g h : File → File) (p : NodePath) (T : File) :
    modifyAt g p (modifyAt h p T) = modifyAt (g ∘ h) p T := by
  induction p generalizing T with
  | nil => rfl
  | cons name rest ih =>
      cases T with
      | regular x c => rfl
      | symlink t => rfl
      | directory entries =>
          simp only [modifyAt, adjust_adjust]
          congr 2
          funext f
          exact ih f

theorem modifyAt_append (g : File → File) (p q : NodePath) (T : File) :
    modifyAt g (p ++ q) T = modifyAt (modifyAt g q) p T := by
  induction p generalizing T with
  | nil => rfl
  | cons name rest ih =>
      cases T with
      | regular x c => rfl
      | symlink t => rfl
      | directory entries =>
          simp only [List.cons_append, modifyAt]
          congr 2
          funext f
          exact ih f

/-- `open` below a node that exists acts on that node alone. -/
theorem openCreate_append {create : File} {p : NodePath} {T f : File} (q walked : NodePath)
    (h : at? p T = some f) :
    openCreate create walked (p ++ q) T =
      (openCreate create (walked ++ p) q f).map fun r => (modifyAt (fun _ => r.1) p T, r.2) := by
  induction p generalizing T walked with
  | nil =>
      simp only [at?, Option.some.injEq] at h
      subst h
      simp only [List.nil_append, List.append_nil, modifyAt]
      cases openCreate create walked q T <;> rfl
  | cons name rest ih =>
      cases T with
      | regular x c => cases h
      | symlink t => cases h
      | directory entries =>
          simp only [at?, Option.bind_eq_some_iff] at h
          obtain ⟨child, hchild, hrest⟩ := h
          simp only [List.cons_append, openCreate, hchild]
          rw [ih (walked ++ [name]) hrest, List.append_assoc, List.singleton_append]
          cases openCreate create (walked ++ name :: rest) q f with
          | error e => rfl
          | ok r =>
              have hcongr : adjust name (fun _ => modifyAt (fun _ => r.1) rest child) entries =
                  adjust name (modifyAt (fun _ => r.1) rest) entries :=
                adjust_congr hchild rfl
              simp only [Except.map, ok_bind, pure_eq_ok, modifyAt, hcongr]

/-! ## Putting a node at a path -/

/-- The tree with the node at `p` replaced by `f`. -/
def put (p : NodePath) (f T : File) : File := modifyAt (fun _ => f) p T

theorem modifyAt_put (g : File → File) (p : NodePath) (f T : File) :
    modifyAt g p (put p f T) = put p (g f) T :=
  modifyAt_modifyAt g (fun _ => f) p T

theorem at?_put {p : NodePath} {T : File} (f : File) (h : (at? p T).isSome) :
    at? p (put p f T) = some f := by
  obtain ⟨f', hf'⟩ := Option.isSome_iff_exists.mp h
  exact at?_modifyAt hf'

/-- Replacing the last entry of a directory, through the entry's own path. -/
theorem modifyAt_put_last {p : NodePath} {T : File} {es : List (Bytes × File)} {name : Bytes}
    {f : File} (g : File → File) (hne : ∀ e ∈ es, e.1 ≠ name) :
    modifyAt g (p ++ [name]) (put p (.directory (es ++ [(name, f)])) T)
      = put p (.directory (es ++ [(name, g f)])) T := by
  rw [modifyAt_append, modifyAt_put]
  simp only [modifyAt, adjust_append_singleton hne]

/-- `open` of a new name above all others in an existing directory. -/
theorem openCreate_put (create : File) {p : NodePath} {T : File} {es : List (Bytes × File)}
    {name : Bytes} (hp : (at? p T).isSome) (hlt : ∀ e ∈ es, e.1 < name) :
    openCreate create [] (p ++ [name]) (put p (.directory es) T)
      = .ok (put p (.directory (es ++ [(name, create)])) T, create) := by
  have hnone : find? name es = none := find?_eq_none (ne_of_forall_lt hlt)
  rw [openCreate_append [name] [] (at?_put (.directory es) hp)]
  simp only [openCreate, hnone, mkPath, emplace_of_forall_lt hlt, Option.getD_some, Except.map]
  rw [← put, put, modifyAt_put]

end File
end NixStore
