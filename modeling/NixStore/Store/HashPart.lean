/-
  NixStore.Store.HashPart

  `LocalStore::queryPathFromHashPart` (`libstore/local-store.cc`).

  The statement asks for a path that is at least the store directory with the
  hash part behind it.  The index on the column gives the least such path in
  byte order, and what lies between a text and a continuation of it starts
  with the text.  So the answer starts with the hash part if any path does.
  It is not read back if the character behind its hash part is a slash or a
  NUL.
-/

import NixStore.Lib.LexOrder
import NixStore.Store.Coherent

namespace NixStore

open LexOrder

-- ============================================================================
-- The statement
-- ============================================================================

/-- The bytes of a text as numbers, in whose order SQLite compares texts. -/
def octets (t : Bytes) : List Nat := t.map UInt8.toNat

/-- The first of some texts in byte order. -/
def leastText : List Bytes → Option Bytes
  | [] => none
  | t :: ts =>
      match leastText ts with
      | none => some t
      | some u => if octets u < octets t then some u else some t

theorem leastText_eq_none {ts : List Bytes} : leastText ts = none ↔ ts = [] := by
  cases ts with
  | nil => exact iff_of_true rfl rfl
  | cons t ts =>
      refine iff_of_false ?_ (List.cons_ne_nil t ts)
      rw [leastText]
      cases leastText ts with
      | none => exact Option.some_ne_none t
      | some u =>
          show (if octets u < octets t then some u else some t) ≠ none
          split
          · exact Option.some_ne_none u
          · exact Option.some_ne_none t

theorem leastText_spec {ts : List Bytes} {t : Bytes} (h : leastText ts = some t) :
    t ∈ ts ∧ ∀ u ∈ ts, ¬ octets u < octets t := by
  induction ts generalizing t with
  | nil => cases h
  | cons s ts ih =>
      rw [leastText] at h
      cases hrest : leastText ts with
      | none =>
          rw [hrest] at h
          cases h
          rw [leastText_eq_none.mp hrest]
          refine ⟨List.mem_cons_self, ?_⟩
          intro u hu
          rw [List.mem_singleton.mp hu]
          exact lt_irrefl _
      | some u =>
          obtain ⟨hmem, hleast⟩ := ih hrest
          rw [hrest] at h
          have h : (if octets u < octets s then some u else some s) = some t := h
          split at h
          · next hlt =>
              cases h
              refine ⟨List.mem_cons_of_mem s hmem, ?_⟩
              intro v hv
              rcases List.mem_cons.mp hv with rfl | hv
              · exact lt_asymm hlt
              · exact hleast v hv
          · next hnot =>
              cases h
              refine ⟨List.mem_cons_self, ?_⟩
              intro v hv
              rcases List.mem_cons.mp hv with rfl | hv
              · exact lt_irrefl _
              · exact fun hlt => hleast v hv (lt_of_lt_of_le hlt (not_lt.mp hnot))

namespace Db

/-- `QueryPathFromHashPart`: `select path from ValidPaths where path >= ? limit
    1`, answered from the index on `path`. -/
def queryPathFromHashPart (db : Db) (bound : Bytes) : Option Bytes :=
  leastText ((db.validPaths.map fun r => r.path).filter fun t => ¬ octets t < octets bound)

/-- The answer is the least path at or above the bound. -/
theorem queryPathFromHashPart_spec {db : Db} {bound t : Bytes}
    (h : db.queryPathFromHashPart bound = some t) :
    db.Valid t ∧ ¬ octets t < octets bound ∧
      ∀ u, db.Valid u → ¬ octets u < octets bound → ¬ octets u < octets t := by
  obtain ⟨hmem, hleast⟩ := leastText_spec h
  have hrows : ∀ {u}, u ∈ (db.validPaths.map fun r => r.path) ↔ db.Valid u := List.mem_map
  rw [List.mem_filter, hrows, decide_eq_true_eq] at hmem
  refine ⟨hmem.1, hmem.2, ?_⟩
  intro u hu hbound
  exact hleast u (List.mem_filter.mpr ⟨hrows.mpr hu, decide_eq_true hbound⟩)

theorem exists_queryPathFromHashPart {db : Db} {bound u : Bytes} (hu : db.Valid u)
    (hbound : ¬ octets u < octets bound) : ∃ t, db.queryPathFromHashPart bound = some t := by
  apply Option.ne_none_iff_exists'.mp
  intro hnone
  have hempty := leastText_eq_none.mp hnone
  have hmem : u ∈ (db.validPaths.map fun r => r.path).filter fun t =>
      ¬ octets t < octets bound :=
    List.mem_filter.mpr ⟨List.mem_map.mpr hu, decide_eq_true hbound⟩
  rw [hempty] at hmem
  cases hmem

end Db

namespace LocalStore

variable (store : StoreDirConfig)

/-- What a path with this hash part starts with. -/
def hashPartBound (hashPart : Bytes) : Bytes := store.text ++ ascii "/" ++ hashPart

/-- What is made of the answer.  As many bytes of it are compared as the bound
    has. -/
def readHashPartAnswer (bound : Bytes) : Option Bytes → Except Error (Option StorePath)
  | none => .ok none
  | some s =>
      if s.take bound.length = bound then (store.parseStorePath (cString s)).map some
      else .ok none

/-- `LocalStore::queryPathFromHashPart`. -/
def queryPathFromHashPart (db : Db) (hashPart : Bytes) : Except Error (Option StorePath) := do
  throwIf (hashPart.length ≠ hashLen) (.error "invalid hash part")
  readHashPartAnswer store (hashPartBound store hashPart)
    (db.queryPathFromHashPart (hashPartBound store hashPart))

/-- A lookup by hash part is exact: it finds a path just when a valid path has
    the hash part, and what it finds is such a path. -/
structure ExactLookup (db : Db) (hashPart : Bytes) : Prop where
  found : (∃ p, queryPathFromHashPart store db hashPart = .ok (some p)) ↔
    ∃ p : StorePath, db.Valid (store.printStorePath p) ∧ p.hashPart = hashPart
  valid : ∀ p, queryPathFromHashPart store db hashPart = .ok (some p) →
    db.Valid (store.printStorePath p) ∧ p.hashPart = hashPart

/-- The first valid path with a hash part, in the order of the index. -/
structure IsFirst (db : Db) (hashPart : Bytes) (p : StorePath) : Prop where
  valid : db.Valid (store.printStorePath p)
  hash : p.hashPart = hashPart
  least : ∀ q : StorePath, db.Valid (store.printStorePath q) → q.hashPart = hashPart →
    ¬ octets (store.printStorePath q) < octets (store.printStorePath p)

variable {store}

/-- A registration adds rows of store paths only. -/
theorem PrintedRows.committed {now : Int} {db db' : Db} {infos : ValidPathInfos}
    (h : PrintedRows store db) (hdb : Committed store now db infos db') :
    PrintedRows store db' := by
  intro t ht
  by_cases hmine : ∃ i ∈ infos.infos, store.printStorePath i.path = t
  · obtain ⟨i, -, rfl⟩ := hmine
    exact ⟨i.path, rfl⟩
  · have hquery := hdb.other t fun i hi heq => hmine ⟨i, hi, heq⟩
    rw [← Db.isSome_queryPathInfo, hquery, Db.isSome_queryPathInfo] at ht
    exact h t ht

/-- An invalidation adds none. -/
theorem PrintedRows.invalidatePath {db db' : Db} {path : Bytes} (h : PrintedRows store db)
    (hdb : db.invalidatePath path = .ok db') : PrintedRows store db' := by
  intro t ht
  rw [← Db.isSome_queryPathInfo, Db.queryPathInfo_invalidate hdb] at ht
  split at ht
  · cases ht
  · exact h t (Db.isSome_queryPathInfo.mp ht)

-- ============================================================================
-- Texts that start with a hash part
-- ============================================================================

theorem octets_inj {s t : Bytes} (h : octets s = octets t) : s = t :=
  List.map_injective_iff.mpr (fun _ _ => UInt8.toNat_inj.mp) h

theorem prefix_of_octets {s t : Bytes} (h : octets s <+: octets t) : s <+: t := by
  obtain ⟨front, hfront, heq⟩ := List.prefix_map_iff.mp h
  rwa [octets_inj heq]

/-- The text of a path starts with its hash part behind the store directory, and
    with no other text as long. -/
theorem bound_prefix_iff {p : StorePath} {hashPart : Bytes} (hlen : hashPart.length = hashLen) :
    hashPartBound store hashPart <+: store.printStorePath p ↔ p.hashPart = hashPart := by
  have hprint : store.printStorePath p
      = store.text ++ ascii "/" ++ (p.hashPart ++ p.separator :: p.name) := by
    rw [StoreDir.printStorePath, ← p.baseName_eq]
  rw [hprint, hashPartBound, List.prefix_append_right_inj]
  constructor
  · intro h
    obtain ⟨rest, hrest⟩ := List.prefix_of_prefix_length_le h (List.prefix_append p.hashPart _)
      (by rw [hlen, p.length_hashPart])
    have hnil : rest = [] := by
      have hlength := congrArg List.length hrest
      rw [List.length_append, hlen, p.length_hashPart] at hlength
      exact List.length_eq_zero_iff.mp (by omega)
    rw [← hrest, hnil, List.append_nil]
  · intro h
    rw [h]
    exact List.prefix_append _ _

/-- The answer to the statement when a valid path has the hash part: the first
    such path. -/
theorem query_eq_first {db : Db} (hprinted : PrintedRows store db) {hashPart : Bytes}
    (hlen : hashPart.length = hashLen) {p : StorePath} (hp : db.Valid (store.printStorePath p))
    (hhash : p.hashPart = hashPart) :
    ∃ q, IsFirst store db hashPart q ∧
      db.queryPathFromHashPart (hashPartBound store hashPart)
        = some (store.printStorePath q) := by
  have habove : ∀ q : StorePath, q.hashPart = hashPart →
      ¬ octets (store.printStorePath q) < octets (hashPartBound store hashPart) := by
    intro q hq
    obtain ⟨rest, hrest⟩ := (bound_prefix_iff hlen).mpr hq
    rw [← hrest, octets, octets, List.map_append]
    intro hlt
    by_cases hnil : rest = []
    · rw [hnil, List.map_nil, List.append_nil] at hlt
      exact lt_irrefl _ hlt
    · exact lt_asymm hlt (lt_append fun h => hnil (List.map_eq_nil_iff.mp h))
  obtain ⟨t, ht⟩ := Db.exists_queryPathFromHashPart hp (habove p hhash)
  obtain ⟨hvalid, hlow, hleast⟩ := Db.queryPathFromHashPart_spec ht
  obtain ⟨q, rfl⟩ := hprinted t hvalid
  -- the answer lies between the bound and a path that starts with it
  obtain ⟨rest, hrest⟩ := (bound_prefix_iff hlen).mpr hhash
  have hhigh := hleast _ hp (habove p hhash)
  rw [← hrest, octets, octets, List.map_append] at hhigh
  have hq : q.hashPart = hashPart :=
    (bound_prefix_iff hlen).mp (prefix_of_octets (prefix_of_between hlow hhigh))
  exact ⟨q, ⟨hvalid, hq, fun r hr hrhash => hleast _ hr (habove r hrhash)⟩, ht⟩

theorem queryPathFromHashPart_eq {db : Db} {hashPart : Bytes} (hlen : hashPart.length = hashLen) :
    queryPathFromHashPart store db hashPart = readHashPartAnswer store (hashPartBound store hashPart)
      (db.queryPathFromHashPart (hashPartBound store hashPart)) := by
  rw [queryPathFromHashPart, throwIf, if_neg (not_not.mpr hlen), ok_bind]

/-- What is returned for the first path with the hash part. -/
theorem queryPathFromHashPart_first {db : Db} {hashPart : Bytes}
    (hlen : hashPart.length = hashLen) {q : StorePath} (hq : q.hashPart = hashPart)
    (hquery : db.queryPathFromHashPart (hashPartBound store hashPart)
      = some (store.printStorePath q)) (p : StorePath) :
    queryPathFromHashPart store db hashPart = .ok (some p) ↔ Readable q ∧ p = q := by
  have htake : (store.printStorePath q).take (hashPartBound store hashPart).length
      = hashPartBound store hashPart :=
    (List.prefix_iff_eq_take.mp ((bound_prefix_iff hlen).mpr hq)).symm
  rw [queryPathFromHashPart_eq hlen, hquery, readHashPartAnswer, if_pos htake]
  constructor
  · intro h
    cases hparse : store.parseStorePath (cString (store.printStorePath q)) with
    | error e =>
        rw [hparse] at h
        cases h
    | ok r =>
        rw [hparse] at h
        cases h
        exact (parse_cString_print store.toStoreDir q p).mp hparse
  · intro h
    rw [(parse_cString_print store.toStoreDir q p).mpr h]
    rfl

/-- Without a valid path with the hash part, nothing is returned. -/
theorem queryPathFromHashPart_none {db : Db} (hprinted : PrintedRows store db) {hashPart : Bytes}
    (hlen : hashPart.length = hashLen)
    (hnone : ¬ ∃ p : StorePath, db.Valid (store.printStorePath p) ∧ p.hashPart = hashPart) :
    queryPathFromHashPart store db hashPart = .ok none := by
  rw [queryPathFromHashPart_eq hlen]
  cases hquery : db.queryPathFromHashPart (hashPartBound store hashPart) with
  | none => rfl
  | some t =>
      obtain ⟨hvalid, -, -⟩ := Db.queryPathFromHashPart_spec hquery
      obtain ⟨q, rfl⟩ := hprinted t hvalid
      apply if_neg
      intro htake
      refine hnone ⟨q, hvalid, (@bound_prefix_iff store q hashPart hlen).mp ?_⟩
      exact List.prefix_iff_eq_take.mpr htake.symm

/-- A lookup by hash part is exact if and only if the first valid path with the
    hash part, if there is one, has neither a slash nor a NUL behind it. -/
theorem queryPathFromHashPart_exact_iff {db : Db} (hprinted : PrintedRows store db)
    {hashPart : Bytes} (hlen : hashPart.length = hashLen) :
    ExactLookup store db hashPart ↔ ∀ p, IsFirst store db hashPart p → Readable p := by
  by_cases hsome : ∃ p : StorePath, db.Valid (store.printStorePath p) ∧ p.hashPart = hashPart
  · obtain ⟨p, hp, hhash⟩ := hsome
    obtain ⟨q, hfirst, hquery⟩ := query_eq_first hprinted hlen hp hhash
    have hresult := queryPathFromHashPart_first hlen hfirst.hash hquery
    constructor
    · intro hexact r hr
      obtain ⟨s, hs⟩ := hexact.found.mpr ⟨p, hp, hhash⟩
      have hreadable := ((hresult s).mp hs).1
      have hsame : r = q := by
        apply store.printStorePath_inj
        apply octets_inj
        exact le_antisymm (not_lt.mp (hr.least q hfirst.valid hfirst.hash))
          (not_lt.mp (hfirst.least r hr.valid hr.hash))
      rwa [hsame]
    · intro hreadable
      have hfound := (hresult q).mpr ⟨hreadable q hfirst, rfl⟩
      refine ⟨iff_of_true ⟨q, hfound⟩ ⟨p, hp, hhash⟩, ?_⟩
      intro r hr
      rw [((hresult r).mp hr).2]
      exact ⟨hfirst.valid, hfirst.hash⟩
  · have hnone := queryPathFromHashPart_none hprinted hlen hsome
    refine iff_of_true ⟨iff_of_false ?_ hsome, ?_⟩ fun p hp => absurd ⟨p, hp.valid, hp.hash⟩ hsome
    · rintro ⟨p, hp⟩
      rw [hnone] at hp
      cases hp
    · intro p hp
      rw [hnone] at hp
      cases hp

end LocalStore

namespace LocalStore.Sample

/-- A path with a slash between its hash part and its name. -/
def slashedPath : StorePath := ⟨List.replicate 32 0x30 ++ ascii "/x", by decide +kernel⟩

/-- The database after it was registered. -/
def slashedDb : Db where
  validPaths := [row slashedPath 1]
  refs := ∅
  derivationOutputs := []
  lastId := 1
  id_le := by decide +kernel
  ids_nodup := by decide +kernel
  paths_nodup := by decide +kernel
  refs_foreign := by decide +kernel
  outputs_foreign := by decide +kernel

theorem printed_slashedDb : PrintedRows store slashedDb := by
  rintro t ⟨r, hr, rfl⟩
  rw [List.mem_singleton.mp hr]
  exact ⟨slashedPath, rfl⟩

theorem slashedPath_first : IsFirst store slashedDb slashedPath.hashPart slashedPath where
  valid := ⟨row slashedPath 1, List.mem_singleton.mpr rfl, rfl⟩
  hash := rfl
  least := by
    rintro q ⟨r, hr, heq⟩ -
    rw [← heq, List.mem_singleton.mp hr]
    exact lt_irrefl _

/-- The path is valid and its hash part is asked for, but it is not read back. -/
theorem slashedPath_lost : ¬ ∀ (db : Db) (hashPart : Bytes), PrintedRows store db →
    hashPart.length = hashLen → ExactLookup store db hashPart := by
  intro h
  have hlen := slashedPath.length_hashPart
  obtain ⟨p, hp⟩ := (h slashedDb _ printed_slashedDb hlen).found.mpr
    ⟨slashedPath, slashedPath_first.valid, rfl⟩
  obtain ⟨q, hfirst, hquery⟩ := query_eq_first printed_slashedDb hlen slashedPath_first.valid rfl
  obtain ⟨⟨hslash, -⟩, -⟩ := (queryPathFromHashPart_first hlen hfirst.hash hquery p).mp hp
  obtain ⟨r, hr, heq⟩ := hfirst.valid
  rw [List.mem_singleton.mp hr] at heq
  rw [← store.printStorePath_inj heq] at hslash
  exact hslash (by decide +kernel)

theorem slashedPath_exact_iff : ExactLookup store slashedDb slashedPath.hashPart ↔
    ∀ p, IsFirst store slashedDb slashedPath.hashPart p → Readable p :=
  queryPathFromHashPart_exact_iff printed_slashedDb slashedPath.length_hashPart

end LocalStore.Sample

end NixStore
