/-
  NixStore.Util.NarGrammar

  The grammar of archives, stated once for every sink.

  A `NarNode` is what the framing of an archive carries: a tree whose file
  bodies keep their padding bytes.  `NarNode.encode` lays it out, and
  `NarNode.feed` is the run of sink calls the parser makes for it.  That
  `parse` accepts exactly these encodings is `NixStore.Util.NarParser`.

  The encoding is self-delimiting (`encode_append_inj`), also for trees the
  parser would refuse: the framing alone decides where it ends.
-/

import NixStore.Util.Archive

namespace NixStore

open Wire

/-- A tree as an archive carries it.  `pad` is what stands between the
    contents of a file and the next tag. -/
inductive NarNode where
  | regular (executable : Bool) (contents pad : Bytes)
  | directory (entries : List (Bytes × NarNode))
  | symlink (target : Bytes)

namespace NarNode

/-! ## Layout -/

mutual

/-- The bytes of a node. -/
def encode : NarNode → Bytes
  | .regular executable contents pad =>
      tag "(" ++ (tag "type" ++ (tag "regular" ++
        ((if executable then tag "executable" ++ tag "" else []) ++
          (tag "contents" ++ (writeNum contents.length ++ (contents ++ (pad ++ tag ")")))))))
  | .directory entries =>
      tag "(" ++ (tag "type" ++ (tag "directory" ++ (encodeEntries entries ++ tag ")")))
  | .symlink target =>
      tag "(" ++ (tag "type" ++ (tag "symlink" ++ (tag "target" ++
        (writeString target ++ tag ")"))))

/-- The bytes of the entries of a directory. -/
def encodeEntries : List (Bytes × NarNode) → Bytes
  | [] => []
  | (name, x) :: rest =>
      tag "entry" ++ (tag "(" ++ (tag "name" ++ (writeString name ++ (tag "node" ++
        (encode x ++ (tag ")" ++ encodeEntries rest))))))

end

mutual

/-- Every length fits its 64-bit field and every file body is padded to a
    multiple of eight. -/
def Framed : NarNode → Prop
  | .regular _ contents pad => contents.length < 2 ^ 64 ∧ pad.length = padLen contents.length
  | .directory entries => FramedEntries entries
  | .symlink target => target.length < 2 ^ 64

/-- `Framed` for the entries of a directory. -/
def FramedEntries : List (Bytes × NarNode) → Prop
  | [] => True
  | (name, x) :: rest => name.length < 2 ^ 64 ∧ Framed x ∧ FramedEntries rest

end

mutual

/-- What the parser demands of a node with `levels` nesting levels left. -/
def Legal : Nat → NarNode → Prop
  | levels, .regular _ contents pad =>
      0 < levels ∧ contents.length < 2 ^ 64 ∧ pad.length = padLen contents.length
  | levels, .directory entries => 0 < levels ∧ LegalEntries (levels - 1) [] entries
  | levels, .symlink target =>
      0 < levels ∧ target ≠ [] ∧ 0 ∉ target ∧ target.length ≤ narMaxTarget

/-- What the parser demands of the entries after the name `prev`. -/
def LegalEntries : Nat → Bytes → List (Bytes × NarNode) → Prop
  | _, _, [] => True
  | levels, prev, (name, x) :: rest =>
      name.length ≤ narMaxName ∧ ¬ invalidName name ∧ prev < name ∧
        Legal levels x ∧ LegalEntries levels name rest

end

mutual

theorem Legal.framed : ∀ {x : NarNode} {levels : Nat}, x.Legal levels → x.Framed
  | .regular _ _ _, _, h => h.2
  | .directory _, _, h => LegalEntries.framed h.2
  | .symlink _, _, h => lt_of_le_of_lt h.2.2.2 (by decide)

theorem LegalEntries.framed : ∀ {es : List (Bytes × NarNode)} {levels : Nat} {prev : Bytes},
    LegalEntries levels prev es → FramedEntries es
  | [], _, _, _ => trivial
  | (_, _) :: _, _, _, ⟨hlen, _, _, hx, hrest⟩ =>
      ⟨lt_of_le_of_lt hlen (by decide), hx.framed, hrest.framed⟩

end

mutual

/-- `P` holds of the contents and the padding of every regular file. -/
def AllFiles (P : Bytes → Bytes → Prop) : NarNode → Prop
  | .regular _ contents pad => P contents pad
  | .directory entries => AllFilesEntries P entries
  | .symlink _ => True

/-- `AllFiles` for the entries of a directory. -/
def AllFilesEntries (P : Bytes → Bytes → Prop) : List (Bytes × NarNode) → Prop
  | [] => True
  | (_, x) :: rest => AllFiles P x ∧ AllFilesEntries P rest

end

mutual

theorem AllFiles.weaken {P Q : Bytes → Bytes → Prop} : ∀ {x : NarNode}, x.AllFiles P →
    (∀ contents pad, P contents pad → Q contents pad) → x.AllFiles Q
  | .regular _ contents pad, h, hPQ => hPQ contents pad h
  | .directory _, h, hPQ => AllFilesEntries.weaken h hPQ
  | .symlink _, _, _ => trivial

theorem AllFilesEntries.weaken {P Q : Bytes → Bytes → Prop} :
    ∀ {es : List (Bytes × NarNode)}, AllFilesEntries P es →
    (∀ contents pad, P contents pad → Q contents pad) → AllFilesEntries Q es
  | [], _, _ => trivial
  | (_, _) :: _, h, hPQ => ⟨AllFiles.weaken h.1 hPQ, AllFilesEntries.weaken h.2 hPQ⟩

end

/-- Every file body is followed by zero bytes only. -/
def PadsZero : NarNode → Prop := AllFiles fun contents pad => pad = writePadding contents.length

/-- Every file size survives being rounded up to a multiple of eight in 64 bits. -/
def Alignable : NarNode → Prop := AllFiles fun contents _ => contents.length ≤ 2 ^ 64 - 8

/-- What the parser looks at in the file bodies: a reading sink has the
    padding compared with zero, a skipping sink has the size rounded up. -/
def BodyOk (skipContents : Bool) : Bytes → Bytes → Prop := fun contents pad =>
  if skipContents then contents.length ≤ 2 ^ 64 - 8 else pad = writePadding contents.length

/-! ## Sink calls -/

section Feed

variable {σ : Type} (sink : FileSystemObjectSink σ)

/-- The writes with which the contents of a file reach the sink. -/
def feedContents (path : NodePath) (contents : Bytes) (st : σ) : Except Error σ :=
  (drainInto (sink.write path) contents.length contents.length contents st).map (·.2)

/-- The call for the executable marker. -/
def feedExecutable (path : NodePath) (executable : Bool) (st : σ) : Except Error σ :=
  if executable then sink.isExecutable path st else .ok st

/-- The calls for a file body. -/
def feedBody (path : NodePath) (contents : Bytes) (st : σ) : Except Error σ := do
  let st ← sink.preallocateContents path contents.length st
  if sink.skipContents then pure st else feedContents sink path contents st

variable (cfg : ArchiveSettings)

mutual

/-- The sink calls made for a node at `path`. -/
def feed : NodePath → NarNode → σ → Except Error σ
  | path, .regular executable contents _, st => do
      let st ← sink.createRegularFile path st
      let st ← feedExecutable sink path executable st
      let st ← feedBody sink path contents st
      sink.finishRegularFile path st
  | path, .directory entries, st => do
      let st ← sink.createDirectory path st
      feedEntries path [] entries st
  | path, .symlink target, st => sink.createSymlink path target st

/-- The sink calls made for the entries of the directory at `path`; `names`
    are the names the case hack has seen in it. -/
def feedEntries : NodePath → List (Bytes × Nat) → List (Bytes × NarNode) → σ → Except Error σ
  | _, _, [], st => .ok st
  | path, names, (name, x) :: rest, st => do
      let (onDisk, names) ← entryName cfg names name
      let st ← feed (path ++ [onDisk]) x st
      feedEntries path names rest st

end

end Feed

/-! ## The encoding is self-delimiting -/

/-- A keyword is short enough for its frame. -/
theorem tag_append_inj {a b : String} {r r' : Bytes}
    (ha : (ascii a).length < 2 ^ 64) (hb : (ascii b).length < 2 ^ 64)
    (h : tag a ++ r = tag b ++ r') : ascii a = ascii b ∧ r = r' :=
  writeString_append_inj ha hb h

/-- Two streams that start with different keywords differ. -/
theorem tag_append_ne {a b : String} {r r' : Bytes}
    (ha : (ascii a).length < 2 ^ 64) (hb : (ascii b).length < 2 ^ 64)
    (hab : ascii a ≠ ascii b) : tag a ++ r ≠ tag b ++ r' := by
  intro h
  exact hab (tag_append_inj ha hb h).1

/-- A file body is split off the front of a stream in one way only. -/
theorem body_append_inj {c c' p p' r r' : Bytes}
    (hc : c.length < 2 ^ 64) (hc' : c'.length < 2 ^ 64)
    (hp : p.length = padLen c.length) (hp' : p'.length = padLen c'.length)
    (h : writeNum c.length ++ (c ++ (p ++ r)) = writeNum c'.length ++ (c' ++ (p' ++ r'))) :
    c = c' ∧ p = p' ∧ r = r' := by
  have hpow : (256 : Nat) ^ 8 = 2 ^ 64 := by norm_num
  rw [writeNum_eq_leBytes, writeNum_eq_leBytes] at h
  obtain ⟨hlen, hbody⟩ :=
    leBytes_append_inj (by rw [hpow]; exact hc) (by rw [hpow]; exact hc') h
  obtain ⟨hcc, hrest⟩ := List.append_inj hbody hlen
  obtain ⟨hpp, hrr⟩ := List.append_inj hrest (by rw [hp, hp', hlen])
  exact ⟨hcc, hpp, hrr⟩

mutual

/-- The bytes of a framed node are split off the front of a stream in one way
    only. -/
theorem encode_append_inj : ∀ {x y : NarNode} {r r' : Bytes}, x.Framed → y.Framed →
    x.encode ++ r = y.encode ++ r' → x = y ∧ r = r'
  | .regular e c p, .regular e' c' p', r, r', hx, hy, h => by
      simp only [Framed] at hx hy
      simp only [encode, List.append_assoc, List.append_cancel_left_eq] at h
      have hmark : e = e' := by
        cases e with
        | false =>
            cases e' with
            | false => rfl
            | true =>
                simp only [Bool.false_eq_true, if_false, if_true, List.nil_append,
                  List.append_assoc] at h
                exact absurd h (tag_append_ne (by decide) (by decide) (by decide))
        | true =>
            cases e' with
            | true => rfl
            | false =>
                simp only [Bool.false_eq_true, if_false, if_true, List.nil_append,
                  List.append_assoc] at h
                exact absurd h (tag_append_ne (by decide) (by decide) (by decide))
      subst hmark
      rw [List.append_cancel_left_eq, List.append_cancel_left_eq] at h
      obtain ⟨hc, hp, hr⟩ := body_append_inj hx.1 hy.1 hx.2 hy.2 h
      rw [List.append_cancel_left_eq] at hr
      exact ⟨by rw [hc, hp], hr⟩
  | .directory es, .directory es', r, r', hx, hy, h => by
      simp only [encode, List.append_assoc, List.append_cancel_left_eq] at h
      obtain ⟨hes, hr⟩ := encodeEntries_append_inj hx hy h
      exact ⟨by rw [hes], hr⟩
  | .symlink t, .symlink t', r, r', hx, hy, h => by
      simp only [encode, List.append_assoc, List.append_cancel_left_eq] at h
      obtain ⟨ht, hrest⟩ := writeString_append_inj hx hy h
      rw [List.append_cancel_left_eq] at hrest
      exact ⟨by rw [ht], hrest⟩
  | .regular _ _ _, .directory _, _, _, _, _, h => by
      simp only [encode, List.append_assoc, List.append_cancel_left_eq] at h
      exact absurd h (tag_append_ne (by decide) (by decide) (by decide))
  | .regular _ _ _, .symlink _, _, _, _, _, h => by
      simp only [encode, List.append_assoc, List.append_cancel_left_eq] at h
      exact absurd h (tag_append_ne (by decide) (by decide) (by decide))
  | .directory _, .regular _ _ _, _, _, _, _, h => by
      simp only [encode, List.append_assoc, List.append_cancel_left_eq] at h
      exact absurd h (tag_append_ne (by decide) (by decide) (by decide))
  | .directory _, .symlink _, _, _, _, _, h => by
      simp only [encode, List.append_assoc, List.append_cancel_left_eq] at h
      exact absurd h (tag_append_ne (by decide) (by decide) (by decide))
  | .symlink _, .regular _ _ _, _, _, _, _, h => by
      simp only [encode, List.append_assoc, List.append_cancel_left_eq] at h
      exact absurd h (tag_append_ne (by decide) (by decide) (by decide))
  | .symlink _, .directory _, _, _, _, _, h => by
      simp only [encode, List.append_assoc, List.append_cancel_left_eq] at h
      exact absurd h (tag_append_ne (by decide) (by decide) (by decide))

/-- `encode_append_inj` for the entries of a directory up to its closing tag. -/
theorem encodeEntries_append_inj : ∀ {es fs : List (Bytes × NarNode)} {r r' : Bytes},
    FramedEntries es → FramedEntries fs →
    encodeEntries es ++ (tag ")" ++ r) = encodeEntries fs ++ (tag ")" ++ r') → es = fs ∧ r = r'
  | [], [], r, r', _, _, h => by
      simp only [encodeEntries, List.nil_append, List.append_cancel_left_eq] at h
      exact ⟨rfl, h⟩
  | [], (_, _) :: _, _, _, _, _, h => by
      simp only [encodeEntries, List.nil_append, List.append_assoc] at h
      exact absurd h (tag_append_ne (by decide) (by decide) (by decide))
  | (_, _) :: _, [], _, _, _, _, h => by
      simp only [encodeEntries, List.nil_append, List.append_assoc] at h
      exact absurd h (tag_append_ne (by decide) (by decide) (by decide))
  | (n, x) :: es, (m, y) :: fs, r, r', hx, hy, h => by
      simp only [FramedEntries] at hx hy
      simp only [encodeEntries, List.append_assoc, List.append_cancel_left_eq] at h
      obtain ⟨hname, h⟩ := writeString_append_inj hx.1 hy.1 h
      rw [List.append_cancel_left_eq] at h
      obtain ⟨hnode, h⟩ := encode_append_inj hx.2.1 hy.2.1 h
      rw [List.append_cancel_left_eq] at h
      obtain ⟨hrest, hr⟩ := encodeEntries_append_inj hx.2.2 hy.2.2 h
      exact ⟨by rw [hname, hnode, hrest], hr⟩

end

end NarNode
end NixStore
