/-
  NixStore.Store.OptimiseStore

  The passes that work on the link farm at the same time: `optimisePath_`
  (`libstore/optimise-store.cc`), `AsyncFileHasher::tryDedup`
  (`libstore/local-store.cc`) and the end of `collectGarbage` that deletes unused
  links (`libstore/gc.cc`).

  An action is one system call of one of them.  What the kernel decides beyond
  names and contents, such as a link count, the order of a directory or a full
  disk, is an answer that comes with the action.  A file that is still being
  restored has bytes in the buffer of its descriptor; `flush` writes some of
  them at any time.
-/

import NixStore.Lib.Transition
import NixStore.Store.StreamingDedup

namespace NixStore

-- ============================================================================
-- Files, names and system calls
-- ============================================================================

/-- An inode of the store: what it holds, and `S_IWUSR`. -/
structure StoreInode where
  object : Object
  writable : Bool
deriving DecidableEq

/-- The names that the passes use: those inside store paths, those of the links
    directory, and `.tmp-link-<pid>-<counter>` in the store directory. -/
inductive Location where
  | store (path : NodePath)
  | farm (hash : Hash)
  | tempLink (pid counter : Nat)
deriving DecidableEq

/-- A file system with such names. -/
abbrev StoreFs := Fs Location StoreInode

/-- `st_mode & S_IFMT`. -/
inductive FileType where
  | directory
  | regular
  | symlink
deriving DecidableEq

/-- What is used of `struct stat`. -/
structure Stat where
  type : FileType
  writable : Bool
  size : Nat
  ino : Nat
  nlink : Nat
deriving DecidableEq

/-- What a call fails with. -/
inductive Errno where
  | exist
  | noEntry
  | noSpace
  | tooManyLinks
  | other
deriving DecidableEq

/-- The node of a single file. -/
def Object.toFile : Object → File
  | .regular executable contents => .regular executable contents
  | .symlink target => .symlink target

/-- The type of a file that is not a directory. -/
def Object.type : Object → FileType
  | .regular _ _ => .regular
  | .symlink _ => .symlink

/-- `maybeLstat`. -/
def maybeLstat (fs : StoreFs) (k : Location) (nlink : Nat) : Option Stat :=
  match fs.names k with
  | none => none
  | some .directory => some { type := .directory, writable := false, size := 0, ino := 0, nlink }
  | some (.object i) => some {
      type := (fs.inodes i).object.type
      writable := (fs.inodes i).writable
      size := (fs.inodes i).object.size
      ino := i
      nlink }

/-- `std::filesystem::create_hard_link`. -/
def createHardLink (fs : StoreFs) (src dst : Location) (fault : Option Errno) :
    Except Errno StoreFs :=
  match fault with
  | some e => .error e
  | none =>
      if fs.names src = none then .error .noEntry
      else
        match fs.link src dst with
        | some fs => .ok fs
        | none => .error .exist

/-- `hashPath` of a single file. -/
def hashPath (store : StoreDirConfig) (o : Object) : Except Error Hash := do
  let nar ← dumpPath NarNode.plain defaultPathFilter o.toFile
  pure (store.hashString .sha256 nar).1

/-- `hashPath` of what a name stands for; it throws if there is nothing. -/
def hashAt (store : StoreDirConfig) (fs : StoreFs) (k : Location) : Option Hash :=
  match fs.read k with
  | some (.object n) => (hashPath store n.object).toOption
  | _ => none

-- ============================================================================
-- optimisePath_
-- ============================================================================

/-- A file that is being optimised: its path, what `lstat` said of it, and its
    hash. -/
structure Visit where
  path : NodePath
  st : Stat
  hash : Hash
deriving DecidableEq

/-- The call that `optimisePath_` makes next. -/
inductive OptimisePc where
  /-- `lstat(path)` of the next path. -/
  | next
  /-- The hash of the file. -/
  | hash (path : NodePath) (st : Stat)
  /-- `maybeLstat(linkPath)`. -/
  | lookup (v : Visit)
  /-- The hash of the link, when repairing. -/
  | compare (v : Visit) (stLink : Stat)
  /-- `unlinkIfExists(linkPath)`. -/
  | unlink (v : Visit)
  /-- `create_hard_link(path, linkPath)`. -/
  | addLink (v : Visit)
  /-- `maybeLstat(linkPath)` after `create_hard_link` found it. -/
  | again (v : Visit)
  /-- `create_hard_link(linkPath, tempLink)`. -/
  | link (v : Visit)
  /-- `rename(tempLink, path)`. -/
  | rename (v : Visit) (counter : Nat)
  /-- `remove(tempLink)` after the rename failed. -/
  | remove (v : Visit) (counter : Nat) (e : Errno)
  | threw
deriving DecidableEq

/-- A thread that optimises store paths, with the paths it has not come to. -/
structure Optimiser where
  pid : Nat
  repair : Bool
  /-- `ImportFileHashes::files`, by path in the store. -/
  fileHashes : NodePath → Option Hash
  todo : List NodePath
  pc : OptimisePc
  filesLinked : Nat
  bytesFreed : Nat

/-- What the kernel answers, and the next value of `tmpCounter`. -/
structure Answer where
  nlink : Nat
  /-- What `readdir` returns. -/
  entries : List (Bytes × Nat)
  fault : Option Errno
  counter : Nat

/-- `readDirectoryIgnoringInodes`. -/
def readDirectoryIgnoringInodes (entries : List (Bytes × Nat)) (inodeHash : List Nat) : List Bytes :=
  (entries.filter fun e => ¬ e.2 ∈ inodeHash ∧ e.1 ≠ ascii "." ∧ e.1 ≠ ascii "..").map Prod.fst

/-- Whether a file is left alone. -/
def skipped (canLinkSymlink : Bool) (inodeHash : List Nat) (st : Stat) : Bool :=
  (st.type = .symlink ∧ canLinkSymlink = false) ∨
  (st.type = .regular ∧ st.writable = true) ∨
  (st.type = .regular ∧ st.size = 0) ∨
  (st.nlink > 1 ∧ st.ino ∈ inodeHash)

/-- A thread, the names and the inodes known to be in the farm. -/
structure OptimiseStep where
  fs : StoreFs
  inodeHash : List Nat
  thread : Optimiser

section Optimise

variable (store : StoreDirConfig) (canLinkSymlink : Bool)

/-- One call of `optimisePath_`, if there is one to make. -/
def optimisePathStep (x : OptimiseStep) (ans : Answer) : Option OptimiseStep :=
  let goto (pc : OptimisePc) : OptimiseStep := { x with thread := { x.thread with pc } }
  match x.thread.pc with
  | .next =>
      match x.thread.todo with
      | [] => none
      | path :: rest =>
          match maybeLstat x.fs (.store path) ans.nlink with
          | none => some (goto .threw)
          | some st =>
              if st.type = .directory then
                let names := readDirectoryIgnoringInodes ans.entries x.inodeHash
                some { x with thread := { x.thread with
                  todo := names.map (fun name => path ++ [name]) ++ rest } }
              else if skipped canLinkSymlink x.inodeHash st then
                some { x with thread := { x.thread with todo := rest } }
              else some { x with thread := { x.thread with todo := rest, pc := .hash path st } }
  | .hash path st =>
      let captured := if st.type = .regular then x.thread.fileHashes path else none
      match captured <|> hashAt store x.fs (.store path) with
      | some hash => some (goto (.lookup ⟨path, st, hash⟩))
      | none => some (goto .threw)
  | .lookup v =>
      match maybeLstat x.fs (.farm v.hash) ans.nlink with
      | none => some (goto (.addLink v))
      | some stLink =>
          if v.st.size ≠ stLink.size then some (goto (.unlink v))
          else if x.thread.repair then some (goto (.compare v stLink))
          else if v.st.ino = stLink.ino then some (goto .next)
          else some (goto (.link v))
  | .compare v stLink =>
      match hashAt store x.fs (.farm v.hash) with
      | none => some (goto .threw)
      | some h =>
          if v.hash ≠ h then some (goto (.unlink v))
          else if v.st.ino = stLink.ino then some (goto .next)
          else some (goto (.link v))
  | .unlink v => some { goto (.addLink v) with fs := x.fs.unlink (.farm v.hash) }
  | .addLink v =>
      match createHardLink x.fs (.store v.path) (.farm v.hash) ans.fault with
      | .ok fs => some { goto .next with fs, inodeHash := v.st.ino :: x.inodeHash }
      | .error .exist => some (goto (.again v))
      | .error .noSpace => some (goto .next)
      | .error _ => some (goto .threw)
  | .again v =>
      match maybeLstat x.fs (.farm v.hash) ans.nlink with
      | none => some (goto .next)
      | some stLink =>
          if v.st.ino = stLink.ino then some (goto .next) else some (goto (.link v))
  | .link v =>
      match createHardLink x.fs (.farm v.hash) (.tempLink x.thread.pid ans.counter) ans.fault with
      | .ok fs => some { goto (.rename v ans.counter) with fs }
      | .error .tooManyLinks => some (goto .next)
      | .error .noEntry => some (goto .next)
      | .error _ => some (goto .threw)
  | .rename v counter =>
      match ans.fault, x.fs.rename (.tempLink x.thread.pid counter) (.store v.path) with
      | none, some fs => some { x with
          fs
          thread := { x.thread with
            pc := .next
            filesLinked := x.thread.filesLinked + 1
            bytesFreed := x.thread.bytesFreed + v.st.size } }
      | fault, _ => some (goto (.remove v counter (fault.getD .noEntry)))
  | .remove _ counter e =>
      some { goto (if e = .tooManyLinks then .next else .threw) with
        fs := x.fs.unlink (.tempLink x.thread.pid counter) }
  | .threw => none

end Optimise

-- ============================================================================
-- tryDedup
-- ============================================================================

/-- A file that has been restored and that `tryDedup` is looking at, or will.
    `hash` and `size` are those of all its bytes, also of those in the buffer of
    the descriptor. -/
structure Dedup where
  key : NodePath
  hash : Hash
  size : Nat
  pc : WorkerPc

/-- `file.native() + ".dedup~"`. -/
def dedupTemp (key : NodePath) : Location :=
  .store (key.dropLast ++ [key.getLast?.getD [] ++ ascii ".dedup~"])

/-- One call of `tryDedup`; `.ready` is its end. -/
def tryDedupStep (fs : StoreFs) (d : Dedup) (fault : Option Errno) : Option (StoreFs × Dedup) :=
  match d.pc with
  | .ready => none
  | .lstat =>
      match if d.size = 0 then none else maybeLstat fs (.farm d.hash) 1 with
      | some stLink => some (fs, { d with pc := if stLink.size ≠ d.size then .ready else .link })
      | none => some (fs, { d with pc := .ready })
  | .link =>
      match createHardLink fs (.farm d.hash) (dedupTemp d.key) fault with
      | .ok fs => some (fs, { d with pc := .rename })
      | .error _ => some (fs, { d with pc := .ready })
  | .rename =>
      match fault, fs.rename (dedupTemp d.key) (.store d.key) with
      | none, some fs => some (fs, { d with pc := .ready })
      | _, _ => some (fs, { d with pc := .unlink })
  | .unlink => some (fs.unlink (dedupTemp d.key), { d with pc := .ready })

-- ============================================================================
-- The passes together
-- ============================================================================

/-- The store while passes work on it. -/
structure Optimising where
  fs : StoreFs
  /-- What has been written to an inode and is still in the buffer of its
      descriptor. -/
  buffered : Nat → Bytes
  /-- The `InodeHash` of a process. -/
  inodeHash : Nat → List Nat
  optimisers : Nat → Optimiser
  dedups : Nat → Option Dedup
  /-- The link that the garbage collector has seen with a link count of 1. -/
  unused : Option Hash

/-- One system call of one of the passes. -/
inductive OptimiseAct where
  | optimise (n : Nat) (ans : Answer)
  | dedup (n : Nat) (fault : Option Errno)
  | flush (ino : Nat) (n : Nat)
  | gcLstat (hash : Hash) (nlink : Nat)
  | gcUnlink

section System

variable (store : StoreDirConfig) (canLinkSymlink : Bool)

/-- What an action does. -/
def optimiseStep (s : Optimising) : OptimiseAct → Option Optimising
  | .optimise n ans =>
      let thread := s.optimisers n
      (optimisePathStep store canLinkSymlink ⟨s.fs, s.inodeHash thread.pid, thread⟩ ans).map
        fun x => { s with
          fs := x.fs
          inodeHash := Function.update s.inodeHash thread.pid x.inodeHash
          optimisers := Function.update s.optimisers n x.thread }
  | .dedup n fault =>
      (s.dedups n).bind fun d => (tryDedupStep s.fs d fault).map fun x => { s with
        fs := x.1
        dedups := Function.update s.dedups n (some x.2) }
  | .flush ino n => some { s with
      fs := s.fs.modify ino fun x =>
        { x with object := Restoring.appendTo ((s.buffered ino).take n) x.object }
      buffered := Function.update s.buffered ino ((s.buffered ino).drop n) }
  | .gcLstat hash nlink =>
      (maybeLstat s.fs (.farm hash) nlink).map fun st => { s with
        unused := if st.nlink ≠ 1 then none else some hash }
  | .gcUnlink => s.unused.map fun hash => { s with
      fs := s.fs.unlink (.farm hash)
      unused := none }

/-- The passes, from a given state. -/
def optimising (s₀ : Optimising) : System Optimising OptimiseAct where
  init := (· = s₀)
  step := optimiseStep store canLinkSymlink

end System

end NixStore
