/-
  NixStore.Store.Path

  Store paths (`libstore/path.{hh,cc}`) and the store directory they live in
  (`StoreDirConfig::parseStorePath` and `printStorePath`), with the lexical
  `canonPath` of `libutil/file-system.cc`.

  The character between the hash part and the name is never looked at by the
  constructor of `StorePath`.  It decides whether a printed path is read back
  (`parseStorePath_print`, `parseStorePath_slash`).
-/

import NixStore.Util.BaseNix32
import Mathlib.Data.List.Lex
import Mathlib.Order.Lattice

namespace NixStore

/-! ## `canonPath` -/

/-- What the loop of `canonPathInner` does with one component. -/
def canonStep (result : List Bytes) (nextComp : Bytes) : List Bytes :=
  if nextComp = [] ∨ nextComp = ascii "." then result
  else if nextComp = ascii ".." then result.dropLast
  else result ++ [nextComp]

/-- The text of the absolute path with these components. -/
def renderPath (comps : List Bytes) : Bytes :=
  if comps = [] then ascii "/" else comps.flatMap fun c => 0x2f :: c

/-- `canonPath` without symlink resolution, as the components of its result. -/
def canonPath (path : Bytes) : Except Error (List Bytes) := do
  throwIf (path = []) (.error "cannot canonicalise an empty path")
  throwIf (path.head? ≠ some 0x2f) (.error s!"not an absolute path: {pathFmt path}")
  pure ((path.splitOn 0x2f).foldl canonStep [])

/-- A component that `canonPath` copies. -/
def NormalComponent (c : Bytes) : Prop :=
  c ≠ [] ∧ c ≠ ascii "." ∧ c ≠ ascii ".." ∧ 0x2f ∉ c

instance (c : Bytes) : Decidable (NormalComponent c) := by
  unfold NormalComponent
  infer_instance

theorem foldl_canonStep {comps : List Bytes} (h : ∀ c ∈ comps, NormalComponent c)
    (result : List Bytes) : comps.foldl canonStep result = result ++ comps := by
  induction comps generalizing result with
  | nil => simp
  | cons c comps ih =>
      obtain ⟨hne, hdot, hdotdot, -⟩ := h c List.mem_cons_self
      have hstep : canonStep result c = result ++ [c] := by
        rw [canonStep, if_neg (by simp [hne, hdot]), if_neg hdotdot]
      rw [List.foldl_cons, hstep, ih fun c hc => h c (List.mem_cons_of_mem _ hc),
        List.append_assoc, List.singleton_append]

/-- A path as its components with slashes between them. -/
theorem flatMap_slash (comps : List Bytes) :
    (comps.flatMap fun c => (0x2f : UInt8) :: c) = List.intercalate [0x2f] ([] :: comps) := by
  induction comps with
  | nil => rfl
  | cons c comps ih =>
      rw [List.flatMap_cons, ih]
      cases comps <;> simp [List.intercalate]

theorem canonPath_intercalate {comps : List Bytes} (hne : comps ≠ [])
    (h : ∀ c ∈ comps, 0x2f ∉ c) :
    canonPath (List.intercalate [0x2f] ([] :: comps)) = .ok (comps.foldl canonStep []) := by
  have hsplit : (List.intercalate [0x2f] ([] :: comps)).splitOn (0x2f : UInt8) = [] :: comps := by
    apply List.splitOn_intercalate
    · intro l hl
      rcases List.mem_cons.mp hl with rfl | hl
      · exact List.not_mem_nil
      · exact h l hl
    · exact List.cons_ne_nil _ _
  obtain ⟨c, rest, rfl⟩ := List.exists_cons_of_ne_nil hne
  rw [canonPath, hsplit, List.foldl_cons, show canonStep [] [] = [] from rfl, ← flatMap_slash]
  rfl

theorem canonPath_eq_ok {path : Bytes} {comps : List Bytes} :
    canonPath path = .ok comps ↔
      path.head? = some 0x2f ∧ (path.splitOn 0x2f).foldl canonStep [] = comps := by
  simp only [canonPath, bind_eq_ok, throwIf_eq_ok, pure_eq_ok, Except.ok.injEq, not_not]
  constructor
  · rintro ⟨-, -, -, hhead, heq⟩
    exact ⟨hhead, heq⟩
  · rintro ⟨hhead, heq⟩
    refine ⟨(), ?_, (), hhead, heq⟩
    rintro rfl
    cases hhead

/-- A component of the result was one of the path. -/
theorem mem_foldl_canonStep {comps result : List Bytes} {c : Bytes}
    (h : c ∈ comps.foldl canonStep result) : c ∈ result ∨ c ∈ comps := by
  induction comps generalizing result with
  | nil => exact Or.inl h
  | cons a comps ih =>
      rcases ih h with h | h
      · unfold canonStep at h
        split at h
        · exact Or.inl h
        · split at h
          · exact Or.inl (List.dropLast_subset _ h)
          · rcases List.mem_append.mp h with h | h
            · exact Or.inl h
            · exact Or.inr (List.mem_cons.mpr (Or.inl (List.mem_singleton.mp h)))
      · exact Or.inr (List.mem_cons_of_mem _ h)

/-- The parts of a split string are without the separator. -/
theorem mem_splitOn {s t : Bytes} {x : UInt8} (h : t ∈ s.splitOn x) :
    x ∉ t ∧ ∀ b ∈ t, b ∈ s := by
  induction s generalizing t with
  | nil =>
      rw [List.splitOn_nil, List.mem_singleton] at h
      subst h
      exact ⟨List.not_mem_nil, fun _ hb => hb⟩
  | cons c s ih =>
      rw [List.splitOn_cons_eq_if_modifyHead] at h
      split at h
      · rcases List.mem_cons.mp h with rfl | h
        · exact ⟨List.not_mem_nil, fun _ hb => absurd hb List.not_mem_nil⟩
        · obtain ⟨hx, hsub⟩ := ih h
          exact ⟨hx, fun b hb => List.mem_cons_of_mem _ (hsub b hb)⟩
      · next hne =>
          obtain ⟨first, rest, hsplit⟩ := List.exists_cons_of_ne_nil (List.splitOn_ne_nil x s)
          rw [hsplit, List.modifyHead_cons] at h
          rcases List.mem_cons.mp h with rfl | h
          · obtain ⟨hx, hsub⟩ := @ih first (by rw [hsplit]; exact List.mem_cons_self)
            refine ⟨?_, ?_⟩
            · intro hmem
              rcases List.mem_cons.mp hmem with rfl | hmem
              · simp at hne
              · exact hx hmem
            · intro b hb
              rcases List.mem_cons.mp hb with rfl | hb
              · exact List.mem_cons_self
              · exact List.mem_cons_of_mem _ (hsub b hb)
          · obtain ⟨hx, hsub⟩ := @ih t (by rw [hsplit]; exact List.mem_cons_of_mem _ h)
            exact ⟨hx, fun b hb => List.mem_cons_of_mem _ (hsub b hb)⟩

/-! ## Store paths -/

/-- `StorePath::MaxPathLen`. -/
def maxPathLen : Nat := 211

/-- The characters `checkName` admits. -/
def isNameChar (c : UInt8) : Bool :=
  (0x30 ≤ c && c ≤ 0x39) || (0x61 ≤ c && c ≤ 0x7a) || (0x41 ≤ c && c ≤ 0x5a) ||
    c == 0x2b || c == 0x2d || c == 0x2e || c == 0x5f || c == 0x3f || c == 0x3d

/-- The part of `checkName` for a name that starts with a dot. -/
def checkDots (name : Bytes) : Except Error Unit :=
  match name with
  | [0x2e] => .error (.badStorePath s!"name '{showBytes name}' is not valid")
  | 0x2e :: 0x2d :: _ => .error (.badStorePath (s!"name '{showBytes name}' is not valid: " ++
      "first dash-separated component must not be '.'"))
  | [0x2e, 0x2e] => .error (.badStorePath s!"name '{showBytes name}' is not valid")
  | 0x2e :: 0x2e :: 0x2d :: _ => .error (.badStorePath
      (s!"name '{showBytes name}' is not valid: " ++
        "first dash-separated component must not be '..'"))
  | _ => .ok ()

/-- `checkName`. -/
def checkName (name : Bytes) : Except Error Unit := do
  throwIf (name = []) (.badStorePath "name must not be empty")
  throwIf (name.length > maxPathLen)
    (.badStorePath s!"name '{showBytes name}' must be no longer than {maxPathLen} characters")
  checkDots name
  throwIf (∃ c ∈ name, isNameChar c = false)
    (.badStorePath s!"name '{showBytes name}' contains illegal character")

/-- The test for one character of the hash part in `StorePath::StorePath`. -/
def isBase32Char (c : UInt8) : Bool :=
  !(c == 0x65 || c == 0x6f || c == 0x75 || c == 0x74) &&
    ((0x30 ≤ c && c ≤ 0x39) || (0x61 ≤ c && c ≤ 0x7a))

/-- The checks of `StorePath::StorePath(std::string_view)`. -/
def checkBaseName (baseName : Bytes) : Except Error Unit := do
  throwIf (baseName.length < hashLen + 1)
    (.badStorePath s!"'{showBytes baseName}' is too short to be a valid store path")
  throwIf (∃ c ∈ baseName.take hashLen, isBase32Char c = false)
    (.badStorePath s!"store path '{showBytes baseName}' contains illegal base-32 character")
  checkName (baseName.drop (hashLen + 1))

/-- `StorePath`. -/
structure StorePath where
  baseName : Bytes
  valid : checkBaseName baseName = .ok ()
deriving DecidableEq

namespace StorePath

/-- `StorePath::StorePath(std::string_view)`. -/
def ofBaseName (baseName : Bytes) : Except Error StorePath :=
  match h : checkBaseName baseName with
  | .ok () => .ok ⟨baseName, h⟩
  | .error e => .error e

theorem ext' {p q : StorePath} (h : p.baseName = q.baseName) : p = q := by
  cases p
  cases q
  simp only [StorePath.mk.injEq]
  exact h

/-- Store paths are ordered by their base names. -/
instance : LinearOrder StorePath :=
  LinearOrder.lift' (fun p => p.baseName.map UInt8.toNat) fun _ _ h =>
    ext' (List.map_injective_iff.mpr (fun _ _ => UInt8.toNat_inj.mp) h)

/-- `StorePath::hashPart`. -/
def hashPart (p : StorePath) : Bytes := p.baseName.take hashLen

/-- `StorePath::name`. -/
def name (p : StorePath) : Bytes := p.baseName.drop (hashLen + 1)

/-- The character between the hash part and the name. -/
def separator (p : StorePath) : UInt8 := p.baseName.getD hashLen 0

theorem ofBaseName_baseName (p : StorePath) : ofBaseName p.baseName = .ok p := by
  obtain ⟨baseName, valid⟩ := p
  unfold ofBaseName
  split
  · rfl
  · rename_i e h
    rw [valid] at h
    cases h

theorem baseName_of_ofBaseName {s : Bytes} {p : StorePath} (h : ofBaseName s = .ok p) :
    p.baseName = s := by
  unfold ofBaseName at h
  split at h
  · cases h
    rfl
  · cases h

end StorePath

/-! ## The store directory -/

/-- A canonical store directory, by its components.  It exists in a file
    system, so its name has no NUL. -/
structure StoreDir where
  comps : List Bytes
  normal : ∀ c ∈ comps, NormalComponent c ∧ 0 ∉ c

namespace StoreDir

/-- `/nix/store` is a store directory. -/
theorem normal_nixStore : ∀ c ∈ [ascii "nix", ascii "store"], NormalComponent c ∧ 0 ∉ c := by
  decide

/-- The member `storeDir` of `StoreDirConfig`. -/
def text (dir : StoreDir) : Bytes := renderPath dir.comps

/-- `StoreDirConfig::printStorePath`. -/
def printStorePath (dir : StoreDir) (path : StorePath) : Bytes :=
  dir.text ++ ascii "/" ++ path.baseName

/-- `StoreDirConfig::parseStorePath`. -/
def parseStorePath (dir : StoreDir) (path : Bytes) : Except Error StorePath := do
  throwIf (path = []) (.badStorePath "empty path is not a valid store path")
  let p ← canonPath path
  throwIf (p.dropLast ≠ dir.comps)
    (.badStorePath s!"path {showBytes (renderPath p)} is not in the Nix store")
  StorePath.ofBaseName (p.getLast?.getD [])

theorem printStorePath_inj (dir : StoreDir) {p q : StorePath}
    (h : dir.printStorePath p = dir.printStorePath q) : p = q :=
  StorePath.ext' (List.append_cancel_left h)

end StoreDir

namespace StorePath

theorem checkBaseName_eq_ok {s : Bytes} : checkBaseName s = .ok () ↔
    hashLen + 1 ≤ s.length ∧ (∀ c ∈ s.take hashLen, isBase32Char c = true) ∧
      checkName (s.drop (hashLen + 1)) = .ok () := by
  simp only [checkBaseName, bind_eq_ok, throwIf_eq_ok, not_lt, not_exists, not_and,
    Bool.not_eq_false]
  constructor
  · rintro ⟨-, hlen, -, hchars, hname⟩
    exact ⟨hlen, hchars, hname⟩
  · rintro ⟨hlen, hchars, hname⟩
    exact ⟨(), hlen, (), hchars, hname⟩

theorem checkName_eq_ok {s : Bytes} (h : checkName s = .ok ()) :
    s ≠ [] ∧ checkDots s = .ok () ∧ ∀ c ∈ s, isNameChar c = true := by
  simp only [checkName, bind_eq_ok, throwIf_eq_ok, not_exists, not_and, Bool.not_eq_false] at h
  obtain ⟨-, hne, -, -, ⟨⟩, hdots, hchars⟩ := h
  exact ⟨hne, hdots, hchars⟩

theorem baseName_eq (p : StorePath) : p.baseName = p.hashPart ++ p.separator :: p.name := by
  have hlen := (checkBaseName_eq_ok.mp p.valid).1
  have hlt : hashLen < p.baseName.length := hlen
  rw [hashPart, separator, name, List.getD_eq_getElem _ _ hlt, ← List.drop_eq_getElem_cons hlt,
    List.take_append_drop]

theorem not_mem_hashPart (p : StorePath) {c : UInt8} (hc : isBase32Char c = false) :
    c ∉ p.hashPart := by
  intro h
  rw [(checkBaseName_eq_ok.mp p.valid).2.1 _ h] at hc
  cases hc

theorem not_mem_name (p : StorePath) {c : UInt8} (hc : isNameChar c = false) : c ∉ p.name := by
  intro h
  rw [(checkName_eq_ok (checkBaseName_eq_ok.mp p.valid).2.2).2.2 _ h] at hc
  cases hc

/-- Slashes and NULs can only stand between the hash part and the name. -/
theorem not_mem_baseName (p : StorePath) {c : UInt8} (hhash : isBase32Char c = false)
    (hname : isNameChar c = false) (hsep : p.separator ≠ c) : c ∉ p.baseName := by
  rw [p.baseName_eq]
  intro h
  rcases List.mem_append.mp h with h | h
  · exact p.not_mem_hashPart hhash h
  · rcases List.mem_cons.mp h with h | h
    · exact hsep h.symm
    · exact p.not_mem_name hname h

theorem separator_mem (p : StorePath) : p.separator ∈ p.baseName := by
  rw [p.baseName_eq]
  exact List.mem_append_right _ List.mem_cons_self

theorem length_hashPart (p : StorePath) : p.hashPart.length = hashLen := by
  have hlen := (checkBaseName_eq_ok.mp p.valid).1
  rw [hashPart, List.length_take]
  omega

/-- A byte string of more than two bytes without a slash is copied by
    `canonPath`. -/
theorem normalComponent_of_length {c : Bytes} (hlen : 2 < c.length) (hslash : 0x2f ∉ c) :
    NormalComponent c := by
  refine ⟨?_, ?_, ?_, hslash⟩
  · rintro rfl
    exact absurd hlen (by decide)
  · rintro rfl
    exact absurd hlen (by decide)
  · rintro rfl
    exact absurd hlen (by decide)

theorem normalComponent_baseName (p : StorePath) (hslash : 0x2f ∉ p.baseName) :
    NormalComponent p.baseName := by
  refine normalComponent_of_length ?_ hslash
  have hlen := (checkBaseName_eq_ok.mp p.valid).1
  unfold hashLen at hlen
  omega

theorem normalComponent_name (p : StorePath) : NormalComponent p.name := by
  obtain ⟨hne, hdots, -⟩ := checkName_eq_ok (checkBaseName_eq_ok.mp p.valid).2.2
  refine ⟨hne, ?_, ?_, p.not_mem_name (by decide)⟩
  · intro h
    rw [← name, h] at hdots
    cases hdots
  · intro h
    rw [← name, h] at hdots
    cases hdots

end StorePath

namespace StoreDir

/-- The text of a path below the store directory. -/
theorem canonPath_text_append (dir : StoreDir) {comps : List Bytes} (hne : comps ≠ [])
    (h : ∀ c ∈ comps, NormalComponent c) :
    canonPath (dir.text ++ comps.flatMap fun c => 0x2f :: c) = .ok (dir.comps ++ comps) := by
  have hall : ∀ c ∈ dir.comps ++ comps, NormalComponent c := by
    intro c hc
    rcases List.mem_append.mp hc with hc | hc
    · exact (dir.normal c hc).1
    · exact h c hc
  by_cases hroot : dir.comps = []
  · -- the root directory prints as a slash, which gives one empty component more
    have htext : dir.text ++ (comps.flatMap fun c => 0x2f :: c)
        = List.intercalate [0x2f] ([] :: [] :: comps) := by
      rw [text, renderPath, if_pos hroot, flatMap_slash]
      simp [List.intercalate, ascii]
    rw [htext, canonPath_intercalate (List.cons_ne_nil _ _), List.foldl_cons,
      show canonStep [] [] = [] from rfl, foldl_canonStep h, hroot]
    intro c hc
    rcases List.mem_cons.mp hc with rfl | hc
    · exact List.not_mem_nil
    · exact (h c hc).2.2.2
  · rw [text, renderPath, if_neg hroot, ← List.flatMap_append, flatMap_slash,
      canonPath_intercalate (by simp [hne]) fun c hc => (hall c hc).2.2.2, foldl_canonStep hall,
      List.nil_append]

/-- `parseStorePath` reads what is canonically an entry of the store directory. -/
theorem parseStorePath_eq_ok (dir : StoreDir) {path : Bytes} {p : StorePath} :
    dir.parseStorePath path = .ok p ↔ canonPath path = .ok (dir.comps ++ [p.baseName]) := by
  simp only [parseStorePath, bind_eq_ok, throwIf_eq_ok, not_not]
  constructor
  · rintro ⟨-, -, comps, hcanon, -, hparent, hbase⟩
    have hname := StorePath.baseName_of_ofBaseName hbase
    have hlen := (StorePath.checkBaseName_eq_ok.mp p.valid).1
    rcases List.eq_nil_or_concat comps with rfl | ⟨front, c, rfl⟩
    · rw [hname] at hlen
      exact absurd hlen (by decide)
    · rw [List.concat_eq_append] at hcanon hparent hname
      rw [List.dropLast_concat] at hparent
      rw [List.getLast?_concat, Option.getD_some] at hname
      rw [hcanon, hparent, hname]
  · intro hcanon
    refine ⟨(), ?_, _, hcanon, (), List.dropLast_concat, ?_⟩
    · rintro rfl
      cases hcanon
    · rw [List.getLast?_concat, Option.getD_some]
      exact p.ofBaseName_baseName

/-- A path whose hash part and name are separated by a slash is not read back:
    it has one component more than it should. -/
theorem parseStorePath_slash (dir : StoreDir) {p : StorePath} (hsep : p.separator = 0x2f) :
    ∃ e, dir.parseStorePath (dir.printStorePath p) = .error e := by
  have hcomps : ∀ c ∈ [p.hashPart, p.name], NormalComponent c := by
    intro c hc
    rcases List.mem_cons.mp hc with rfl | hc
    · exact StorePath.normalComponent_of_length (by rw [p.length_hashPart]; decide)
        (p.not_mem_hashPart (by decide))
    · rw [List.mem_singleton.mp hc]
      exact p.normalComponent_name
  have hcanon := dir.canonPath_text_append (List.cons_ne_nil _ _) hcomps
  have htext : dir.printStorePath p
      = dir.text ++ [p.hashPart, p.name].flatMap fun c => 0x2f :: c := by
    rw [printStorePath, p.baseName_eq, hsep]
    simp [ascii]
  have hnonempty : dir.text ++ ([p.hashPart, p.name].flatMap fun c => 0x2f :: c) ≠ [] := by
    simp
  have hparent : (dir.comps ++ [p.hashPart, p.name]).dropLast ≠ dir.comps := by
    intro h
    have hlen := congrArg List.length h
    simp at hlen
  rw [parseStorePath, htext, hcanon, throwIf, if_neg hnonempty, ok_bind]
  simp only [ok_bind, throwIf, if_pos hparent]
  exact ⟨_, rfl⟩

/-- What is read for an entry of the store directory. -/
theorem parseStorePath_component (dir : StoreDir) {name : Bytes} (hname : NormalComponent name) :
    dir.parseStorePath (dir.text ++ ascii "/" ++ name) = StorePath.ofBaseName name := by
  have hcomps : ∀ c ∈ [name], NormalComponent c := by
    intro c hc
    rw [List.mem_singleton.mp hc]
    exact hname
  have hcanon := dir.canonPath_text_append (List.cons_ne_nil _ _) hcomps
  have htext : dir.text ++ ascii "/" ++ name = dir.text ++ [name].flatMap fun c => 0x2f :: c := by
    simp [ascii]
  have hnonempty : dir.text ++ ([name].flatMap fun c => 0x2f :: c) ≠ [] := by
    simp
  rw [parseStorePath, htext, throwIf, if_neg hnonempty, ok_bind, hcanon, ok_bind,
    List.dropLast_concat, List.getLast?_concat]
  simp only [throwIf, ne_eq, not_true_eq_false, if_false, ok_bind, Option.getD_some]

theorem parseStorePath_entry (dir : StoreDir) {name : Bytes} (hlong : 2 < name.length)
    (hslash : 0x2f ∉ name) :
    dir.parseStorePath (dir.text ++ ascii "/" ++ name) = StorePath.ofBaseName name :=
  dir.parseStorePath_component (StorePath.normalComponent_of_length hlong hslash)

/-- Every other path is read back. -/
theorem parseStorePath_print (dir : StoreDir) {p : StorePath} (hsep : p.separator ≠ 0x2f) :
    dir.parseStorePath (dir.printStorePath p) = .ok p := by
  have hlong : 2 < p.baseName.length := by
    have hlen := (StorePath.checkBaseName_eq_ok.mp p.valid).1
    unfold hashLen at hlen
    omega
  rw [printStorePath, dir.parseStorePath_entry hlong (p.not_mem_baseName (by decide) (by decide) hsep)]
  exact p.ofBaseName_baseName

end StoreDir

end NixStore
