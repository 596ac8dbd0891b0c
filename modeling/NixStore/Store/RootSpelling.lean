/-
  NixStore.Store.RootSpelling

  Which spellings of a link's target make a root.

  `isInStore` goes through the components of a target and passes over doubled
  slashes, `toStorePath` cuts the text at a fixed offset, and `parseStorePath`
  canonicalises what was cut off.  Together they read a target only if it
  begins with the store directory as it is written (`toStorePath_eq_ok_iff`).

  The reason is one of length: canonicalising never makes a text longer, so a
  text of the length of the store directory that is canonically the store
  directory is the store directory.
-/

import NixStore.Store.CollectSpecific

namespace NixStore

open Effect

-- ============================================================================
-- Canonicalising does not lengthen
-- ============================================================================

/-- The length of components with a slash before each. -/
def textLength (comps : List Bytes) : Nat := (comps.map fun c => c.length + 1).sum

@[simp] theorem textLength_nil : textLength [] = 0 := rfl

@[simp] theorem textLength_cons (c : Bytes) (comps : List Bytes) :
    textLength (c :: comps) = c.length + 1 + textLength comps := by
  rw [textLength, List.map_cons, List.sum_cons]
  rfl

@[simp] theorem textLength_append (l l' : List Bytes) :
    textLength (l ++ l') = textLength l + textLength l' := by
  rw [textLength, List.map_append, List.sum_append]
  rfl

theorem textLength_dropLast (l : List Bytes) : textLength l.dropLast ≤ textLength l := by
  rcases List.eq_nil_or_concat l with rfl | ⟨front, c, rfl⟩
  · exact Nat.le_refl _
  · rw [List.concat_eq_append, List.dropLast_concat, textLength_append]
    exact Nat.le_add_right _ _

/-- A component is copied, or the text gets shorter. -/
theorem canonStep_cases (result : List Bytes) (c : Bytes) :
    canonStep result c = result ++ [c] ∨
      textLength (canonStep result c) < textLength result + (c.length + 1) := by
  unfold canonStep
  by_cases hskip : c = [] ∨ c = ascii "."
  · rw [if_pos hskip]
    right
    omega
  rw [if_neg hskip]
  by_cases hup : c = ascii ".."
  · rw [if_pos hup]
    right
    have hless := textLength_dropLast result
    omega
  · rw [if_neg hup]
    exact Or.inl rfl

theorem textLength_canonStep (result : List Bytes) (c : Bytes) :
    textLength (canonStep result c) ≤ textLength result + (c.length + 1) := by
  rcases canonStep_cases result c with heq | hless
  · rw [heq, textLength_append, textLength_cons, textLength_nil]
  · omega

/-- Canonicalised components are no longer than the text, and as long only if
    all of them were copied. -/
theorem foldl_canonStep_length (comps result : List Bytes) :
    textLength (comps.foldl canonStep result) ≤ textLength result + textLength comps ∧
      (textLength (comps.foldl canonStep result) = textLength result + textLength comps →
        comps.foldl canonStep result = result ++ comps) := by
  induction comps generalizing result with
  | nil =>
      refine ⟨Nat.le_refl _, fun _ => ?_⟩
      rw [List.foldl_nil, List.append_nil]
  | cons c comps ih =>
      obtain ⟨hle, hcopied⟩ := ih (canonStep result c)
      have hstep := textLength_canonStep result c
      rw [List.foldl_cons, textLength_cons]
      refine ⟨by omega, fun heq => ?_⟩
      rcases canonStep_cases result c with hcopy | hless
      · have hrest : textLength (canonStep result c)
            = textLength result + (c.length + 1) := by
          rw [hcopy, textLength_append, textLength_cons, textLength_nil]
        rw [hcopied (by omega), hcopy, List.append_assoc, List.singleton_append]
      · omega

/-- The components of a text are as long as the text and one slash. -/
theorem textLength_splitOn (s : Bytes) : textLength (s.splitOn 0x2f) = s.length + 1 := by
  have hwhole : List.intercalate [0x2f] (s.splitOn 0x2f) = s := List.intercalate_splitOn 0x2f
  have hlen := congrArg List.length hwhole
  obtain ⟨c, rest, hsplit⟩ := List.exists_cons_of_ne_nil (List.splitOn_ne_nil 0x2f s)
  rw [hsplit] at hlen ⊢
  rw [← hlen, textLength_cons]
  have hrest : ∀ (c : Bytes) (rest : List Bytes),
      (List.intercalate [0x2f] (c :: rest)).length = c.length + textLength rest := by
    intro c rest
    induction rest generalizing c with
    | nil => simp [List.intercalate]
    | cons d rest ih =>
        have hcons : List.intercalate [0x2f] (c :: d :: rest)
            = c ++ 0x2f :: List.intercalate [0x2f] (d :: rest) := by
          simp [List.intercalate]
        rw [hcons, List.length_append, List.length_cons, ih, textLength_cons]
        omega
  rw [hrest]
  omega

theorem length_renderPath {comps : List Bytes} (h : comps ≠ []) :
    (renderPath comps).length = textLength comps := by
  rw [renderPath, if_neg h]
  induction comps with
  | nil => exact absurd rfl h
  | cons c comps ih =>
      by_cases hnil : comps = []
      · subst hnil
        simp
      · rw [List.flatMap_cons, List.length_append, ih hnil, textLength_cons, List.length_cons]

/-- A text cut at its last slash. -/
theorem exists_last_slash {u : Bytes} (h : 0x2f ∈ u) :
    ∃ a b, u = a ++ 0x2f :: b ∧ 0x2f ∉ b := by
  induction u with
  | nil => exact absurd h List.not_mem_nil
  | cons c u ih =>
      by_cases hmem : (0x2f : UInt8) ∈ u
      · obtain ⟨a, b, rfl, hb⟩ := ih hmem
        exact ⟨c :: a, b, rfl, hb⟩
      · have hc : c = 0x2f := ((List.mem_cons.mp h).resolve_right hmem).symm
        exact ⟨[], u, by rw [hc]; rfl, hmem⟩

-- ============================================================================
-- What is read
-- ============================================================================

namespace StoreDir

variable (dir : StoreDir) {p : StorePath}

/-- How the target of a link has to be written for `toStorePath` to read it:
    the store directory, a slash, the base name, and at most a path below. -/
def Spelled (target : Bytes) (path : StorePath) : Prop :=
  ∃ below : Bytes, (below = [] ∨ below.head? = some 0x2f) ∧
    (target = dir.printStorePath path ++ below ∨
      dir.comps = [] ∧ target = 0x2f :: path.baseName ++ below)

theorem length_text : dir.text.length ≤ textLength dir.comps + 1 := by
  by_cases hroot : dir.comps = []
  · rw [text, renderPath, if_pos hroot, hroot]
    decide
  · rw [text, length_renderPath hroot]
    exact Nat.le_succ _

/-- A text no longer than the store directory, and canonically the same, is the
    store directory. -/
theorem text_of_canon {a : Bytes} (hroot : dir.comps ≠ [])
    (hcanon : (a.splitOn 0x2f).foldl canonStep [] = dir.comps) (hhead : a = [] ∨ a.head? = some 0x2f)
    (hlen : a.length ≤ dir.text.length) : a = dir.text := by
  cases a with
  | nil => exact absurd hcanon.symm hroot
  | cons c a =>
      have hc : c = 0x2f := Option.some.inj (hhead.resolve_left (List.cons_ne_nil _ _))
      subst hc
      have hsplit : (0x2f :: a).splitOn 0x2f = [] :: a.splitOn 0x2f :=
        List.splitOn_append_cons_self [] a
      rw [hsplit, List.foldl_cons, show canonStep [] [] = [] from rfl] at hcanon
      obtain ⟨hle, hcopied⟩ := foldl_canonStep_length (a.splitOn 0x2f) []
      rw [text, length_renderPath hroot, List.length_cons] at hlen
      rw [hcanon, textLength_nil, textLength_splitOn] at hle hcopied
      -- as long as the text, so every component was copied
      have hall := hcopied (by omega)
      rw [List.nil_append] at hall
      rw [text, renderPath, if_neg hroot, flatMap_slash, hall, ← hsplit, List.intercalate_splitOn]

/-- A text that is cut off behind the length of the store directory and read
    is the store directory, a slash and the base name. -/
theorem parseStorePath_cut {u w : Bytes} (hu : u.head? = some 0x2f)
    (hlen : u.length ≤ dir.text.length + 1) (hw : 0x2f ∉ w)
    (h : dir.parseStorePath (u ++ w) = .ok p) :
    u ++ w = dir.printStorePath p ∨ dir.comps = [] ∧ u ++ w = 0x2f :: p.baseName := by
  have hlong := (StorePath.checkBaseName_eq_ok.mp p.valid).1
  have htext := dir.length_text
  obtain ⟨a, b, rfl, hb⟩ := exists_last_slash (List.mem_of_mem_head? hu)
  have hbw : (0x2f : UInt8) ∉ b ++ w := by
    rw [List.mem_append, not_or]
    exact ⟨hb, hw⟩
  have hsplit : ((a ++ 0x2f :: b) ++ w).splitOn 0x2f = a.splitOn 0x2f ++ [b ++ w] := by
    rw [List.append_assoc, List.cons_append, List.splitOn_append_cons_self,
      List.splitOn_eq_singleton hbw]
  obtain ⟨-, hfold⟩ := canonPath_eq_ok.mp (dir.parseStorePath_eq_ok.mp h)
  rw [hsplit, List.foldl_append, List.foldl_cons, List.foldl_nil] at hfold
  have hshort := (foldl_canonStep_length (a.splitOn 0x2f) []).1
  rw [textLength_nil, textLength_splitOn] at hshort
  rw [List.length_append, List.length_cons] at hlen
  -- a base name does not fit into the directory part
  have hnot : ¬ textLength (dir.comps ++ [p.baseName])
      ≤ textLength ((a.splitOn 0x2f).foldl canonStep []) := by
    rw [textLength_append, textLength_cons, textLength_nil]
    unfold hashLen at hlong
    omega
  unfold canonStep at hfold
  by_cases hskip : b ++ w = [] ∨ b ++ w = ascii "."
  · rw [if_pos hskip] at hfold
    exact absurd (Nat.le_of_eq (congrArg textLength hfold.symm)) hnot
  rw [if_neg hskip] at hfold
  by_cases hup : b ++ w = ascii ".."
  · rw [if_pos hup] at hfold
    refine absurd ?_ hnot
    rw [← hfold]
    exact textLength_dropLast _
  rw [if_neg hup] at hfold
  obtain ⟨hdir, hname⟩ := List.append_inj' hfold rfl
  have hbase : b ++ w = p.baseName := List.singleton_inj.mp hname
  rw [List.append_assoc, List.cons_append, hbase]
  by_cases hroot : dir.comps = []
  · have hone : dir.text.length = 1 := by
      rw [text, renderPath, if_pos hroot]
      rfl
    cases a with
    | nil => exact Or.inr ⟨hroot, rfl⟩
    | cons c a =>
        have hnil : a = [] := by
          apply List.length_eq_zero_iff.mp
          rw [List.length_cons] at hlen
          omega
        subst hnil
        have hc : c = 0x2f := Option.some.inj hu
        left
        rw [printStorePath, text, renderPath, if_pos hroot, hc]
        rfl
  · left
    have hhead : a = [] ∨ a.head? = some 0x2f := by
      cases a with
      | nil => exact Or.inl rfl
      | cons c a => exact Or.inr hu
    have hsame := dir.text_of_canon hroot hdir hhead (by omega)
    rw [printStorePath, hsame, List.append_assoc]
    rfl

/-- The elements of a path, without what a trailing slash adds. -/
theorem pathElements_append {v below : Bytes} {dirs : List Bytes} {name : Bytes}
    (hnames : (v.splitOn 0x2f).filter (· ≠ []) = dirs ++ [name])
    (hbelow : below = [] ∨ below.head? = some 0x2f) :
    ∃ rest, pathElements (v ++ below) = dirs ++ name :: rest := by
  have hall : ∃ rest, ((v ++ below).splitOn 0x2f).filter (· ≠ []) = dirs ++ name :: rest := by
    cases below with
    | nil =>
        rw [List.append_nil]
        exact ⟨[], hnames⟩
    | cons c below =>
        have hc : c = 0x2f := Option.some.inj (hbelow.resolve_left (List.cons_ne_nil _ _))
        rw [hc, List.splitOn_append_cons_self, List.filter_append, hnames, List.append_assoc,
          List.singleton_append]
        exact ⟨_, rfl⟩
  obtain ⟨rest, hrest⟩ := hall
  unfold pathElements
  dsimp only
  rw [hrest]
  split
  · exact ⟨rest ++ [[]], by rw [List.append_assoc, List.cons_append]⟩
  · exact ⟨rest, rfl⟩

/-- The names of a text as `parseStorePath_cut` gives it. -/
theorem names_spelled (hslash : 0x2f ∉ p.baseName) {v : Bytes}
    (hv : v = dir.printStorePath p ∨ dir.comps = [] ∧ v = 0x2f :: p.baseName) :
    (v.splitOn 0x2f).filter (· ≠ []) = dir.comps ++ [p.baseName] := by
  have hname : [p.baseName].filter (· ≠ []) = [p.baseName] := by
    rw [List.filter_eq_self]
    intro c hc
    rw [List.mem_singleton.mp hc]
    exact decide_eq_true (p.normalComponent_baseName hslash).1
  have htext : (dir.text.splitOn 0x2f).filter (· ≠ []) = dir.comps := by
    by_cases hroot : dir.comps = []
    · rw [text, renderPath, if_pos hroot, hroot]
      rfl
    · have hsplit : dir.text.splitOn 0x2f = [] :: dir.comps := by
        rw [text, renderPath, if_neg hroot, flatMap_slash]
        apply List.splitOn_intercalate
        · intro c hc
          rcases List.mem_cons.mp hc with rfl | hc
          · exact List.not_mem_nil
          · exact (dir.normal c hc).1.2.2.2
        · exact List.cons_ne_nil _ _
      rw [hsplit, List.filter_cons_of_neg (by simp), List.filter_eq_self]
      exact fun c hc => decide_eq_true (dir.normal c hc).1.1
  rcases hv with rfl | ⟨hroot, rfl⟩
  · have happend : dir.printStorePath p = dir.text ++ 0x2f :: p.baseName := by
      rw [printStorePath, List.append_assoc]
      rfl
    rw [happend, List.splitOn_append_cons_self, List.filter_append, htext,
      List.splitOn_eq_singleton hslash, hname]
  · have hsplit : (0x2f :: p.baseName).splitOn 0x2f = [] :: p.baseName.splitOn 0x2f :=
      List.splitOn_append_cons_self [] p.baseName
    rw [hsplit, List.splitOn_eq_singleton hslash, hroot, List.filter_cons_of_neg (by simp), hname,
      List.nil_append]

/-- A target that is spelled so is in the store. -/
theorem Spelled.isInStore {target : Bytes} (hslash : 0x2f ∉ p.baseName)
    (h : dir.Spelled target p) : dir.isInStore target = true := by
  obtain ⟨below, hbelow, htarget⟩ := h
  have hcut : ∃ v, target = v ++ below ∧ v.head? = some 0x2f ∧
      (v = dir.printStorePath p ∨ dir.comps = [] ∧ v = 0x2f :: p.baseName) := by
    rcases htarget with htarget | ⟨hroot, htarget⟩
    · refine ⟨_, htarget, ?_, Or.inl rfl⟩
      obtain ⟨hhead, -⟩ := canonPath_eq_ok.mp (dir.parseStorePath_eq_ok.mp
        (dir.parseStorePath_print fun hsep => hslash (hsep ▸ p.separator_mem)))
      exact hhead
    · exact ⟨_, htarget, rfl, Or.inr ⟨hroot, rfl⟩⟩
  obtain ⟨v, rfl, hhead, hv⟩ := hcut
  obtain ⟨rest, helements⟩ := pathElements_append (dir.names_spelled hslash hv) hbelow
  obtain ⟨hne, hdot, hdotdot, -⟩ := p.normalComponent_baseName hslash
  have hhead' : (v ++ below).head? = some 0x2f := by
    rw [List.head?_append, hhead]
    rfl
  unfold StoreDir.isInStore isInDir
  rw [helements, List.drop_left]
  have hpre : dir.comps.isPrefixOf (dir.comps ++ p.baseName :: rest) = true :=
    List.isPrefixOf_iff_prefix.mpr (List.prefix_append _ _)
  simp [hhead', hpre, hne, hdot, hdotdot]

/-- Which targets `toStorePath` reads as a store path. -/
theorem toStorePath_eq_ok_iff {target : Bytes} (hslash : 0x2f ∉ p.baseName) :
    dir.toStorePath target = .ok p ↔ dir.Spelled target p := by
  have hcons : ∀ {below : Bytes}, (below = [] ∨ below.head? = some 0x2f) →
      below.takeWhile (· ≠ 0x2f) = [] := by
    intro below hbelow
    cases below with
    | nil => rfl
    | cons c below =>
        rw [List.takeWhile_cons_of_neg]
        have hc := Option.some.inj (hbelow.resolve_left (List.cons_ne_nil _ _))
        simp [hc]
  constructor
  · intro h
    simp only [toStorePath, bind_eq_ok, throwIf_eq_ok, Bool.not_eq_false] at h
    obtain ⟨-, hin, hread⟩ := h
    have hhead : target.head? = some 0x2f := by
      unfold StoreDir.isInStore isInDir at hin
      simp only [Bool.and_eq_true, decide_eq_true_eq] at hin
      exact hin.1.1
    have hu : (target.take (dir.text.length + 1)).head? = some 0x2f := by
      rw [List.head?_take, if_neg (Nat.succ_ne_zero _)]
      exact hhead
    have hw : (0x2f : UInt8) ∉ (target.drop (dir.text.length + 1)).takeWhile (· ≠ 0x2f) := by
      intro hmem
      have hne := List.mem_takeWhile_imp hmem
      simp at hne
    have hcut := dir.parseStorePath_cut hu (List.length_take_le _ _) hw hread
    -- the rest of the target begins where the cut ends
    refine ⟨(target.drop (dir.text.length + 1)).dropWhile (· ≠ 0x2f), ?_, ?_⟩
    · cases hrest : (target.drop (dir.text.length + 1)).dropWhile (· ≠ 0x2f) with
      | nil => exact Or.inl rfl
      | cons c rest =>
          right
          have hc := List.head?_dropWhile_not (· ≠ (0x2f : UInt8)) (target.drop (dir.text.length + 1))
          rw [hrest] at hc
          simpa using hc
    · have hwhole : target = (target.take (dir.text.length + 1) ++
          (target.drop (dir.text.length + 1)).takeWhile (· ≠ 0x2f)) ++
            (target.drop (dir.text.length + 1)).dropWhile (· ≠ 0x2f) := by
        rw [List.append_assoc, List.takeWhile_append_dropWhile, List.take_append_drop]
      rcases hcut with hcut | ⟨hroot, hcut⟩
      · left
        rw [← hcut]
        exact hwhole
      · right
        refine ⟨hroot, ?_⟩
        rw [← hcut]
        exact hwhole
  · intro h
    have hin := h.isInStore dir hslash
    obtain ⟨below, hbelow, htarget⟩ := h
    rw [toStorePath, hin, throwIf, if_neg Bool.noConfusion, ok_bind]
    dsimp only
    rcases htarget with rfl | ⟨hroot, rfl⟩
    · have hcut : dir.printStorePath p ++ below
          = (dir.text ++ ascii "/") ++ (p.baseName ++ below) := by
        rw [printStorePath, List.append_assoc]
      have hlen : (dir.text ++ ascii "/").length = dir.text.length + 1 := List.length_append
      rw [hcut, ← hlen, List.take_left, List.drop_left, List.takeWhile_append_of_pos, hcons hbelow,
        List.append_nil]
      · exact dir.parseStorePath_print fun hsep => hslash (hsep ▸ p.separator_mem)
      · exact fun c hc => decide_eq_true fun heq => hslash (heq ▸ hc)
    · have hone : dir.text.length = 1 := by
        rw [text, renderPath, if_pos hroot]
        rfl
      have hread : dir.parseStorePath (0x2f :: p.baseName) = .ok p := by
        have hsplit : (0x2f :: p.baseName).splitOn 0x2f = [] :: p.baseName.splitOn 0x2f :=
          List.splitOn_append_cons_self [] p.baseName
        refine dir.parseStorePath_eq_ok.mpr (canonPath_eq_ok.mpr ⟨rfl, ?_⟩)
        rw [hsplit, List.splitOn_eq_singleton hslash, List.foldl_cons,
          show canonStep [] [] = [] from rfl, hroot, List.nil_append]
        apply foldl_canonStep
        intro c hc
        rw [List.mem_singleton.mp hc]
        exact p.normalComponent_baseName hslash
      obtain ⟨c, name, hcons'⟩ := List.exists_cons_of_ne_nil (p.normalComponent_baseName hslash).1
      rw [hcons'] at hread hslash ⊢
      rw [hone]
      show dir.parseStorePath (0x2f :: c :: (name ++ below).takeWhile (· ≠ 0x2f)) = .ok p
      rw [List.takeWhile_append_of_pos, hcons hbelow, List.append_nil]
      · exact hread
      · exact fun d hd => decide_eq_true fun heq => hslash (heq ▸ List.mem_cons_of_mem c hd)

end StoreDir

-- ============================================================================
-- One link
-- ============================================================================

namespace Collecting

variable {store : StoreDirConfig} {env : Surroundings} {p : StorePath}

/-- The path is valid, and the process does not remember otherwise. -/
structure Answered (store : StoreDirConfig) (p : StorePath) (s : Collecting) : Prop where
  valid : s.db.Valid (store.printStorePath p)
  told : s.pathInfoCache.find p ≠ some none

/-- `isValidPath` says so. -/
theorem Answered.saysValid {s : Collecting} (h : Answered store p s) :
    LocalStore.saysValid (LocalStore.known store s.toLocalStore p) = true := by
  unfold LocalStore.known
  cases hfind : s.toLocalStore.pathInfoCache.find p with
  | none =>
      rw [LocalStore.saysValid_internal]
      exact Db.isSome_queryPathInfo.mpr h.valid
  | some v =>
      cases v with
      | none => exact absurd hfind h.told
      | some info => rfl

section Link

variable (hkeep : ∀ s, s.db.Valid (store.printStorePath p) →
  (env.others s).db.Valid (store.printStorePath p))
include hkeep

theorem Answered.afterOthers {s : Collecting} (h : Answered store p s) :
    Answered store p (s.afterOthers env) := ⟨hkeep s h.valid, h.told⟩

/-- A path that is valid becomes a root, whatever else may. -/
theorem addRootIfValid_adds (q : StorePath) (R : Finset StorePath) :
    Spec (fun s => Answered store p s ∧ s.roots = R) (addRootIfValid store env q)
      (fun _ t => p ∈ t.roots ↔ p ∈ R ∨ q = p) (fun _ _ => False) := by
  refine Spec.seq (Q := fun valid t => t.roots = R ∧ (q = p → valid = true)) ?_ fun valid => ?_
  · refine Spec.seq (Q := fun _ t => Answered store p t ∧ t.roots = R)
      (Spec.change fun s hs => ⟨hs.1.afterOthers hkeep, hs.2⟩) fun _ => ?_
    rintro s ⟨hs, hroots⟩
    have hresult : result (LocalStore.isValidPath store q) s.toLocalStore
        = .ok (LocalStore.saysValid (LocalStore.known store s.toLocalStore q)) :=
      LocalStore.result_isValidPath s.toLocalStore q
    unfold result at hresult
    unfold callStore
    cases hx : LocalStore.isValidPath store q s.toLocalStore with
    | ok valid t =>
        rw [hx] at hresult
        refine ⟨hroots, ?_⟩
        rintro rfl
        rw [Except.ok.inj hresult]
        exact hs.saysValid
    | error e t =>
        rw [hx] at hresult
        cases hresult
  · refine Spec.cond (fun _ => Spec.change ?_) fun hnot => Spec.ret ?_
    · rintro t ⟨rfl, -⟩
      show p ∈ insert q t.roots ↔ p ∈ t.roots ∨ q = p
      rw [Finset.mem_insert, or_comm, eq_comm]
    · rintro t ⟨rfl, hvalid⟩
      exact ⟨Or.inl, fun h => h.resolve_right fun heq => hnot (hvalid heq)⟩

variable (hslash : 0x2f ∉ p.baseName)
include hslash

theorem foundRoot_adds (target : Bytes) (R : Finset StorePath) :
    Spec (fun s => Answered store p s ∧ s.roots = R) (foundRoot store env target)
      (fun _ t => p ∈ t.roots ↔ p ∈ R ∨ store.Spelled target p)
      (fun _ t => p ∈ t.roots ↔ p ∈ R ∨ store.Spelled target p) := by
  have hiff : store.toStorePath target = .ok p ↔ store.Spelled target p :=
    store.toStorePath_eq_ok_iff hslash
  have hsame : ∀ {s : Collecting}, ¬ store.Spelled target p → s.roots = R →
      (p ∈ s.roots ↔ p ∈ R ∨ store.Spelled target p) := by
    rintro s hnot rfl
    exact ⟨Or.inl, fun h => h.resolve_right hnot⟩
  unfold foundRoot
  cases hread : store.toStorePath target with
  | ok q =>
      have hq : store.Spelled target p ↔ q = p := by
        rw [← hiff, hread, Except.ok.injEq]
      rw [hq]
      exact (addRootIfValid_adds hkeep q R).weaken (fun _ h => h) (fun _ _ h => h)
        fun _ _ h => h.elim
  | error e =>
      have hnot : ¬ store.Spelled target p := by
        rw [← hiff, hread]
        nofun
      cases e
      case badStorePath => exact Spec.ret fun s hs => hsame hnot hs.2
      all_goals exact Spec.raise fun s hs => hsame hnot hs.2

/-- A link that does not point into the store adds what the link that it points
    to adds. -/
theorem findIndirectRoot_adds (path target : List Bytes) {s : Collecting}
    (hs : Answered store p s) :
    Run s (findIndirectRoot store env path target)
      (fun _ t => p ∈ t.roots ↔ p ∈ s.roots ∨ ∃ target2,
        (s.afterOthers env).outside target = some (.symlink target2) ∧ store.Spelled target2 p)
      (fun _ t => p ∈ t.roots ↔ p ∈ s.roots ∨ ∃ target2,
        (s.afterOthers env).outside target = some (.symlink target2) ∧
          store.Spelled target2 p) := by
  have hafter := hs.afterOthers hkeep
  refine Spec.seq (Q := fun _ t => t = s.afterOthers env) (Spec.change fun _ ht => by rw [ht])
    fun _ => Spec.look ?_
  rintro _ rfl
  cases hfile : (s.afterOthers env).outside target with
  | none =>
      refine Spec.cond (fun _ => Spec.change ?_) fun _ => Spec.ret ?_
      · rintro _ rfl
        exact ⟨Or.inl, fun h => h.resolve_right (by simp)⟩
      · rintro _ rfl
        exact ⟨Or.inl, fun h => h.resolve_right (by simp)⟩
  | some file =>
      cases file with
      | symlink target2 =>
          have hthis : (∃ t, some (RootFile.symlink target2) = some (.symlink t) ∧
              store.Spelled t p) ↔ store.Spelled target2 p := by
            simp
          simp only [hthis]
          refine Spec.cond (fun _ => ?_) fun hout => Spec.ret ?_
          · refine (foundRoot_adds hkeep hslash target2 s.roots).weaken ?_ (fun _ _ h => h)
              fun _ _ h => h
            rintro _ rfl
            exact ⟨hafter, rfl⟩
          · rintro _ rfl
            refine ⟨Or.inl, fun h => h.resolve_right fun hspelled => hout ?_⟩
            exact hspelled.isInStore _ hslash
      | regular =>
          refine Spec.ret ?_
          rintro _ rfl
          exact ⟨Or.inl, fun h => h.resolve_right (by simp)⟩
      | other =>
          refine Spec.ret ?_
          rintro _ rfl
          exact ⟨Or.inl, fun h => h.resolve_right (by simp)⟩

end Link

/-- A link whose target is canonically a valid store path or below it makes the
    path a root exactly if the target is spelled as the store directory is, or
    if the file it names is itself a link that is spelled so. -/
theorem findRoot_adds_iff {path : List Bytes} {target : Bytes} {below : List Bytes}
    {s : Collecting} (hkeep : ∀ s, s.db.Valid (store.printStorePath p) →
      (env.others s).db.Valid (store.printStorePath p))
    (hs : Answered store p s)
    (hlink : (s.afterOthers env).outside path = some (.symlink target))
    (hcanon : canonPath target = .ok (store.comps ++ p.baseName :: below)) :
    p ∈ (final (findRoot store env path) s).roots ↔
      p ∈ s.roots ∨ store.Spelled target p ∨
        (store.isInStore target = false ∧ ∃ target2,
          ((s.afterOthers env).afterOthers env).outside (store.comps ++ p.baseName :: below)
            = some (.symlink target2) ∧ store.Spelled target2 p) := by
  have hslash : (0x2f : UInt8) ∉ p.baseName := by
    obtain ⟨-, hfold⟩ := canonPath_eq_ok.mp hcanon
    have hmem : p.baseName ∈ (target.splitOn 0x2f).foldl canonStep [] := by
      rw [hfold]
      exact List.mem_append_right _ List.mem_cons_self
    exact (mem_splitOn ((mem_foldl_canonStep hmem).resolve_left List.not_mem_nil)).1
  have hafter := hs.afterOthers hkeep
  refine Spec.final_of (I := fun t : Collecting => p ∈ t.roots ↔ p ∈ s.roots ∨ store.Spelled target p ∨
    (store.isInStore target = false ∧ ∃ target2,
      ((s.afterOthers env).afterOthers env).outside (store.comps ++ p.baseName :: below)
        = some (.symlink target2) ∧ store.Spelled target2 p)) ?_
  refine Spec.seq (Q := fun _ t => t = s.afterOthers env) (Spec.change fun _ ht => by rw [ht])
    fun _ => Spec.look ?_
  rintro _ rfl
  rw [hlink]
  refine Spec.cond (fun hin => ?_) fun hout => ?_
  · -- what `toStorePath` reads decides
    have hnot : ∀ {P : Prop}, (store.isInStore target = false ∧ P) ↔ False := by
      intro P
      rw [hin]
      simp
    simp only [hnot, or_false]
    refine (foundRoot_adds hkeep hslash target s.roots).weaken ?_ (fun _ _ h => h) fun _ _ h => h
    rintro _ rfl
    exact ⟨hafter, rfl⟩
  · have hnot : ¬ store.Spelled target p := fun h => hout (h.isInStore _ hslash)
    have hfalse : store.isInStore target = false := by simpa using hout
    have habs : absPath target path.dropLast = .ok (store.comps ++ p.baseName :: below) := by
      rw [absPath, if_pos (canonPath_eq_ok.mp hcanon).1, hcanon]
    simp only [hnot, hfalse, true_and, false_or]
    refine Spec.seq (Q := fun links t => links = store.comps ++ p.baseName :: below ∧
      t = s.afterOthers env) ?_ fun links => ?_
    · rintro _ rfl
      rw [habs]
      exact ⟨rfl, rfl⟩
    · intro t ht
      obtain ⟨rfl, rfl⟩ := ht
      exact findIndirectRoot_adds hkeep hslash path _ hafter _ rfl

end Collecting

namespace Collecting

namespace Sample

open LocalStore.Sample (pathA)

/-- The store with one path, and a link in `gcroots` with this target. -/
def withRootLink (target : Bytes) : Collecting :=
  start { world with
    outside := fun path => if path = [ascii "gcroots", ascii "a"] then some (.symlink target) else none }
    (LruCache.empty 10)

end Sample

open LocalStore.Sample (store pathA)
open Sample

/-- The link is written as the store directory is. -/
theorem findRoot_adds_direct :
    pathA ∈ (final (findRoot store (alone []) [ascii "gcroots", ascii "a"])
      (withRootLink (store.printStorePath pathA))).roots := by
  have hcanon : canonPath (store.printStorePath pathA) = .ok (store.comps ++ pathA.baseName :: []) :=
    store.parseStorePath_eq_ok.mp (store.parseStorePath_print (by decide))
  have hvalid : world.db.Valid (store.printStorePath pathA) :=
    ⟨LocalStore.Sample.row pathA 1, List.mem_singleton.mpr rfl, rfl⟩
  exact (findRoot_adds_iff (fun _ h => h) ⟨hvalid, by decide⟩ rfl hcanon).mpr
    (Or.inr (Or.inl ⟨[], Or.inl rfl, Or.inl (List.append_nil _).symm⟩))

/-- With a doubled slash in the store directory, the target is canonically the
    same path and in the store, and makes no root. -/
theorem findRoot_doubledSlash :
    canonPath (ascii "/nix//store/00000000000000000000000000000000-a")
      = .ok (store.comps ++ [pathA.baseName]) ∧
    store.isInStore (ascii "/nix//store/00000000000000000000000000000000-a") = true ∧
    world.db.Valid (store.printStorePath pathA) ∧
    pathA ∉ (final (findRoot store (alone []) [ascii "gcroots", ascii "a"])
      (withRootLink (ascii "/nix//store/00000000000000000000000000000000-a"))).roots := by
  refine ⟨by decide +kernel, by decide +kernel,
    ⟨LocalStore.Sample.row pathA 1, List.mem_singleton.mpr rfl, rfl⟩, by decide +kernel⟩

end Collecting

end NixStore
