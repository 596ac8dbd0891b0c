/-
  NixStore.Store.ReadBack

  Which texts of the database are read back as what was written, and with it
  what `queryPathInfo` returns after `registerValidPaths`.

  Hashes and content addresses always survive.  Store paths do unless a slash
  or a NUL stands between hash part and name, signatures unless the name of
  their key breaks the space-separated list.  An update of a path that is
  already valid writes neither its deriver nor the cache, and takes no
  reference away (`registerValidPaths_readsBack_iff`).
-/

import NixStore.Store.RegisterAtomic

namespace NixStore
namespace LocalStore

open Effect OrderedSet Wire

variable {store : StoreDirConfig}

/-! ## Texts -/

theorem cString_of_no_nul {t : Bytes} (h : 0 ∉ t) : cString t = t := by
  unfold cString
  rw [List.takeWhile_eq_self_iff]
  intro b hb
  have hne : b ≠ 0 := fun heq => h (heq ▸ hb)
  simpa using hne

theorem nul_not_mem_cString (t : Bytes) : 0 ∉ cString t := by
  intro h
  simpa using List.mem_takeWhile_imp h

/-- A path whose text is read back. -/
def Readable (p : StorePath) : Prop := p.separator ≠ 0x2f ∧ p.separator ≠ 0

instance (p : StorePath) : Decidable (Readable p) := by
  unfold Readable
  infer_instance

theorem nul_not_mem_text (dir : StoreDir) : 0 ∉ dir.text := by
  unfold StoreDir.text renderPath
  split
  · decide
  · intro h
    obtain ⟨c, hc, hmem⟩ := List.mem_flatMap.mp h
    rcases List.mem_cons.mp hmem with hmem | hmem
    · exact absurd hmem (by decide)
    · exact (dir.normal c hc).2 hmem

/-- With a NUL behind the hash part, the rest of the path is lost and what
    remains is too short. -/
theorem parse_cString_nul (dir : StoreDir) {p : StorePath} (hsep : p.separator = 0) :
    ∃ e, dir.parseStorePath (cString (dir.printStorePath p)) = .error e := by
  have hcut : cString (dir.printStorePath p) = dir.text ++ ascii "/" ++ p.hashPart := by
    have hfront : 0 ∉ dir.text ++ ascii "/" ++ p.hashPart := by
      intro h
      rcases List.mem_append.mp h with h | h
      · rcases List.mem_append.mp h with h | h
        · exact nul_not_mem_text dir h
        · exact absurd h (by decide)
      · exact p.not_mem_hashPart (by decide) h
    have hall : ∀ b ∈ dir.text ++ ascii "/" ++ p.hashPart, decide (b ≠ 0) = true := by
      intro b hb
      have hne : b ≠ 0 := fun heq => hfront (heq ▸ hb)
      simpa using hne
    rw [StoreDir.printStorePath, p.baseName_eq, hsep, ← List.append_assoc, cString,
      List.takeWhile_append_of_pos hall]
    simp
  have hlen : p.hashPart.length = hashLen := p.length_hashPart
  rw [hcut, dir.parseStorePath_entry (by rw [hlen]; decide) (p.not_mem_hashPart (by decide))]
  have hshort : p.hashPart.length < hashLen + 1 := by omega
  unfold StorePath.ofBaseName
  split
  · next hok =>
      rw [StorePath.checkBaseName_eq_ok] at hok
      omega
  · next e he => exact ⟨e, rfl⟩

/-- What is read for the text of a path is that path, if anything. -/
theorem parse_cString_print (dir : StoreDir) (p q : StorePath) :
    dir.parseStorePath (cString (dir.printStorePath p)) = .ok q ↔ Readable p ∧ q = p := by
  by_cases hnul : p.separator = 0
  · obtain ⟨e, he⟩ := parse_cString_nul dir hnul
    rw [he]
    constructor
    · intro h
      cases h
    · rintro ⟨⟨-, hne⟩, -⟩
      exact absurd hnul hne
  · have hwhole : cString (dir.printStorePath p) = dir.printStorePath p := by
      apply cString_of_no_nul
      intro h
      rcases List.mem_append.mp h with h | h
      · rcases List.mem_append.mp h with h | h
        · exact nul_not_mem_text dir h
        · exact absurd h (by decide)
      · exact p.not_mem_baseName (by decide) (by decide) hnul h
    rw [hwhole]
    by_cases hslash : p.separator = 0x2f
    · obtain ⟨e, he⟩ := dir.parseStorePath_slash hslash
      rw [he]
      constructor
      · intro h
        cases h
      · rintro ⟨⟨hne, -⟩, -⟩
        exact absurd hslash hne
    · rw [dir.parseStorePath_print hslash, Except.ok.injEq]
      exact ⟨fun h => ⟨⟨hslash, hnul⟩, h.symm⟩, fun h => h.2.symm⟩

/-- A column of paths, read as a set. -/
theorem readStorePaths_eq_ok {ts : List Bytes} {S : Finset StorePath} :
    readStorePaths store ts = .ok S ↔
      (∀ t ∈ ts, ∃ q ∈ S, store.parseStorePath (cString t) = .ok q) ∧
        ∀ q ∈ S, ∃ t ∈ ts, store.parseStorePath (cString t) = .ok q := by
  induction ts generalizing S with
  | nil =>
      rw [readStorePaths, Except.ok.injEq]
      constructor
      · rintro rfl
        simp
      · rintro ⟨-, h⟩
        refine (Finset.eq_empty_of_forall_notMem fun q hq => ?_).symm
        obtain ⟨t, ht, -⟩ := h q hq
        exact absurd ht List.not_mem_nil
  | cons t ts ih =>
      simp only [readStorePaths, NixStore.bind_eq_ok, pure_eq_ok, Except.ok.injEq]
      constructor
      · rintro ⟨q, hq, S', hS', rfl⟩
        obtain ⟨hall, hback⟩ := ih.mp hS'
        refine ⟨?_, ?_⟩
        · intro u hu
          rcases List.mem_cons.mp hu with rfl | hu
          · exact ⟨q, Finset.mem_insert_self _ _, hq⟩
          · obtain ⟨r, hr, hparse⟩ := hall u hu
            exact ⟨r, Finset.mem_insert_of_mem hr, hparse⟩
        · intro r hr
          rcases Finset.mem_insert.mp hr with rfl | hr
          · exact ⟨t, List.mem_cons_self, hq⟩
          · obtain ⟨u, hu, hparse⟩ := hback r hr
            exact ⟨u, List.mem_cons_of_mem _ hu, hparse⟩
      · rintro ⟨hall, hback⟩
        obtain ⟨q, hq, hparse⟩ := hall t List.mem_cons_self
        -- the rest of the column gives those members that are read from it
        refine ⟨q, hparse, S.filter fun r => ∃ u ∈ ts, store.parseStorePath (cString u) = .ok r,
          ih.mpr ⟨?_, ?_⟩, ?_⟩
        · intro u hu
          obtain ⟨r, hr, hr'⟩ := hall u (List.mem_cons_of_mem _ hu)
          exact ⟨r, Finset.mem_filter.mpr ⟨hr, u, hu, hr'⟩, hr'⟩
        · intro r hr
          exact (Finset.mem_filter.mp hr).2
        · ext r
          rw [Finset.mem_insert, Finset.mem_filter]
          constructor
          · rintro (rfl | ⟨hr, -⟩)
            · exact hq
            · exact hr
          · intro hr
            obtain ⟨u, hu, hr'⟩ := hback r hr
            rcases List.mem_cons.mp hu with rfl | hu
            · rw [hparse, Except.ok.injEq] at hr'
              exact Or.inl hr'.symm
            · exact Or.inr ⟨hr, u, hu, hr'⟩

/-! ## Columns -/

theorem readNarHash_column (p : StorePath) (info : ValidPathInfo) :
    readNarHash store p (hashColumn info) = .ok info.narHash := by
  rw [readNarHash, hashColumn, cString_of_no_nul (info.narHash.nul_not_mem_toText (Or.inl rfl)),
    Hash.parseAnyPrefixed_base16]

theorem readCa_column (info : ValidPathInfo) : readCa (caColumn info) = .ok info.ca := by
  unfold caColumn
  cases info.ca with
  | none => rfl
  | some ca =>
      rw [Option.map_some, readCa, cString_of_no_nul ca.nul_not_mem_render,
        ContentAddress.parseOpt, if_neg ca.render_ne_nil, ContentAddress.parse_render]
      rfl

variable (store) in
theorem readDeriver_column (info : ValidPathInfo) :
    readDeriver store (deriverColumn store info) = .ok info.deriver ↔
      ∀ d, info.deriver = some d → Readable d := by
  unfold deriverColumn
  cases info.deriver with
  | none => simp [readDeriver]
  | some d =>
      have hread := parse_cString_print store.toStoreDir d d
      rw [Option.map_some, readDeriver]
      constructor
      · intro h e he
        rw [← Option.some.inj he]
        cases hparse : store.parseStorePath (cString (store.printStorePath d)) with
        | error e =>
            rw [hparse] at h
            cases h
        | ok q =>
            rw [hparse] at h
            cases h
            exact (hread.mp hparse).1
      · intro h
        rw [hread.mpr ⟨h d rfl, rfl⟩]
        rfl

/-- The tokens of a space-separated list of texts without spaces. -/
theorem tokenize_concat {l : List Bytes} (hspace : ∀ t ∈ l, 0x20 ∉ t) (hne : ∀ t ∈ l, t ≠ []) :
    tokenizeString (concatStringsSep (ascii " ") l) 0x20 = l := by
  have hsep : ascii " " = [0x20] := by decide
  unfold tokenizeString concatStringsSep
  rw [hsep]
  by_cases hl : l = []
  · subst hl
    decide
  · rw [List.splitOn_intercalate 0x20 hspace hl, List.filter_eq_self]
    intro t ht
    simpa using hne t ht

/-- A path that was read from a column is readable. -/
theorem readable_of_parse_cString {dir : StoreDir} {t : Bytes} {p : StorePath}
    (h : dir.parseStorePath (cString t) = .ok p) : Readable p := by
  obtain ⟨-, hfold⟩ := canonPath_eq_ok.mp (dir.parseStorePath_eq_ok.mp h)
  have hmem : p.baseName ∈ ((cString t).splitOn 0x2f).foldl canonStep [] := by
    rw [hfold]
    exact List.mem_append_right _ List.mem_cons_self
  obtain ⟨hslash, hsub⟩ :=
    mem_splitOn ((mem_foldl_canonStep hmem).resolve_left List.not_mem_nil)
  exact ⟨fun h => hslash (h ▸ p.separator_mem),
    fun h => nul_not_mem_cString t (hsub 0 (h ▸ p.separator_mem))⟩

/-- Every token of a column is without spaces and NULs. -/
theorem mem_tokenize_cString {s t : Bytes} (h : t ∈ tokenizeString (cString s) 0x20) :
    0x20 ∉ t ∧ 0 ∉ t := by
  obtain ⟨hspace, hsub⟩ := mem_splitOn (List.mem_filter.mp h).1
  exact ⟨hspace, fun hnul => nul_not_mem_cString s (hsub 0 hnul)⟩

theorem mem_concatStringsSep {sep : Bytes} {l : List Bytes} {b : UInt8}
    (h : b ∈ concatStringsSep sep l) : b ∈ sep ∨ ∃ t ∈ l, b ∈ t := by
  unfold concatStringsSep at h
  induction l with
  | nil => exact absurd h List.not_mem_nil
  | cons t l ih =>
      cases l with
      | nil =>
          rw [List.intercalate_singleton] at h
          exact Or.inr ⟨t, List.mem_cons_self, h⟩
      | cons t' l =>
          rw [List.intercalate_cons_cons] at h
          rcases List.mem_append.mp h with h | h
          · rcases List.mem_append.mp h with h | h
            · exact Or.inr ⟨t, List.mem_cons_self, h⟩
            · exact Or.inl h
          · rcases ih h with h | ⟨u, hu, hb⟩
            · exact Or.inl h
            · exact Or.inr ⟨u, List.mem_cons_of_mem _ hu, hb⟩

theorem readSigs_column (info : ValidPathInfo) :
    readSigs (sigsColumn info) = .ok info.sigs ↔ ∀ s ∈ info.sigs, s.Listable := by
  unfold sigsColumn
  by_cases hempty : info.sigs = ∅
  · rw [if_pos hempty, hempty]
    simp [readSigs]
  rw [if_neg hempty, readSigs]
  constructor
  · -- what is read is a token of the column, and tokens have neither spaces nor NULs
    intro hread s hs
    obtain ⟨t, ht, hparse⟩ := Signature.mem_parseMany hread hs
    obtain ⟨hspace, hnul⟩ := mem_tokenize_cString ht
    obtain ⟨hkey, hsig, hcolon, hmem⟩ := Signature.parse_eq_ok hparse
    exact ⟨hkey, hsig, hcolon, fun h => hspace (hmem _ h), fun h => hnul (hmem _ h)⟩
  · intro hall
    have hclean : ∀ t ∈ Signature.toStrings info.sigs, 0x20 ∉ t ∧ 0 ∉ t ∧ t ≠ [] := by
      intro t ht
      obtain ⟨s, hs, rfl⟩ := List.mem_map.mp ht
      have hlist := hall s (mem_inOrder.mp hs)
      exact ⟨(Signature.toText_clean hlist).1, (Signature.toText_clean hlist).2, s.toText_ne_nil⟩
    have hnul : 0 ∉ concatStringsSep (ascii " ") (Signature.toStrings info.sigs) := by
      intro h
      rcases mem_concatStringsSep h with h | ⟨t, ht, h⟩
      · exact absurd h (by decide)
      · exact (hclean t ht).2.1 h
    rw [cString_of_no_nul hnul, tokenize_concat (fun t ht => (hclean t ht).1)
      fun t ht => (hclean t ht).2.2, Signature.toStrings,
      Signature.parseMany_map fun s hs => hall s (mem_inOrder.mp hs), toFinset_inOrder]

/-! ## Answers after a registration -/

/-- A query has returned an info that says the same. -/
def Returns (r : Except Error ValidPathInfo) (info : ValidPathInfo) : Prop :=
  ∃ info', r = .ok info' ∧ info'.Same info

variable (store) in
/-- `queryPathInfo` returns the info of its path, whether it is answered from
    the cache or, once the path is not cached any more, from the database. -/
structure ReadsBack (s : LocalStore) (info : ValidPathInfo) : Prop where
  now : Returns (result (queryPathInfo store info.path) s) info
  uncached : Returns (result (queryPathInfo store info.path)
    { s with pathInfoCache := s.pathInfoCache.erase info.path }) info

theorem returns_known {x : Except Error (Option ValidPathInfo)} {p : StorePath}
    {info : ValidPathInfo} :
    Returns (x.bind (infoOrThrow store p)) info ↔
      ∃ info', x = .ok (some info') ∧ info'.Same info := by
  unfold Returns
  rcases x with e | _ | info' <;> simp [infoOrThrow, Except.bind]

/-- Both answers are right if what is cached and what is in the database are. -/
theorem readsBack_iff (s : LocalStore) (info : ValidPathInfo) :
    ReadsBack store s info ↔
      (∀ v, s.pathInfoCache.find info.path = some v → ∃ info', v = some info' ∧ info'.Same info) ∧
        ∃ info', queryPathInfoInternal store s.db info.path = .ok (some info') ∧
          info'.Same info := by
  have huncached : known store { s with pathInfoCache := s.pathInfoCache.erase info.path } info.path
      = queryPathInfoInternal store s.db info.path := by
    rw [known, LruCache.find_erase_self]
  constructor
  · rintro ⟨hnow, hlater⟩
    rw [result_queryPathInfo, returns_known, huncached] at hlater
    refine ⟨fun v hv => ?_, hlater⟩
    rw [result_queryPathInfo, returns_known, known, hv] at hnow
    obtain ⟨info', heq, hsame⟩ := hnow
    exact ⟨info', Except.ok.inj heq, hsame⟩
  · rintro ⟨hcached, hread⟩
    refine ⟨?_, ?_⟩
    · rw [result_queryPathInfo, returns_known, known]
      cases hfind : s.pathInfoCache.find info.path with
      | none => exact hread
      | some v =>
          obtain ⟨info', rfl, hsame⟩ := hcached v hfind
          exact ⟨info', rfl, hsame⟩
    · rw [result_queryPathInfo, returns_known, huncached]
      exact hread

/-- A row is read as an info if each of its columns is. -/
theorem internal_same_iff {db : Db} {info : ValidPathInfo} {row : ValidPathRow}
    (h : db.queryPathInfo (store.printStorePath info.path) = some row)
    (hhash : row.hash = hashColumn info) (hsize : row.narSize = narSizeColumn info)
    (hultimate : row.ultimate = ultimateColumn info) (hsigs : row.sigs = sigsColumn info)
    (hca : row.ca = caColumn info) :
    (∃ info', queryPathInfoInternal store db info.path = .ok (some info') ∧ info'.Same info) ↔
      readDeriver store row.deriver = .ok info.deriver ∧ (∀ s ∈ info.sigs, s.Listable) ∧
        readStorePaths store (db.queryReferences row.id) = .ok info.references := by
  have hsize' : row.narSize.getD 0 = info.narSize := by
    rw [hsize, narSizeColumn]
    by_cases hzero : info.narSize = 0
    · simp [hzero]
    · simp [hzero]
  have hultimate' : decide (row.ultimate.getD 0 = 1) = info.ultimate := by
    rw [hultimate, ultimateColumn]
    cases info.ultimate <;> decide
  unfold queryPathInfoInternal
  rw [h]
  simp only [hhash, hsigs, hca, readNarHash_column, readCa_column, ok_bind, NixStore.bind_eq_ok,
    pure_eq_ok, Except.ok.injEq, Option.some.injEq]
  constructor
  · rintro ⟨_, ⟨deriver, hderiver, sigs, hsigs', references, hrefs, rfl⟩, hsame⟩
    obtain ⟨-, rfl, -, rfl, -, -, rfl, -⟩ := hsame
    exact ⟨hderiver, (readSigs_column info).mp hsigs', hrefs⟩
  · rintro ⟨hderiver, hlist, hrefs⟩
    refine ⟨_, ⟨info.deriver, hderiver, info.sigs, (readSigs_column info).mpr hlist,
      info.references, hrefs, rfl⟩, rfl, rfl, rfl, rfl, hsize', hultimate', rfl, rfl⟩

/-- The references in the database after a registration are read back if the
    new ones are readable and the old ones are among them. -/
theorem readStorePaths_committed {now : Int} {db db' : Db} {infos : ValidPathInfos}
    (h : Committed store now db infos db') {info : ValidPathInfo} (hinfo : info ∈ infos.infos)
    {row : ValidPathRow} (hrow : db'.queryPathInfo (store.printStorePath info.path) = some row) :
    readStorePaths store (db'.queryReferences row.id) = .ok info.references ↔
      (∀ q ∈ info.references, Readable q) ∧
        ∀ t, db.Refers (store.printStorePath info.path) t →
          ∃ q ∈ info.references, store.parseStorePath (cString t) = .ok q := by
  obtain ⟨hmem, hpath⟩ := Db.queryPathInfo_eq_some.mp hrow
  have hreferences : ∀ t, t ∈ db'.queryReferences row.id ↔
      db.Refers (store.printStorePath info.path) t ∨
        ∃ q ∈ info.references, t = store.printStorePath q := by
    intro t
    rw [Db.mem_queryReferences hmem, hpath, h.refers]
    refine or_congr_right ⟨?_, fun hq => ⟨info, hinfo, rfl, hq⟩⟩
    rintro ⟨i, hi, heq, hq⟩
    have hsame := List.inj_on_of_nodup_map infos.nodup hinfo hi (store.printStorePath_inj heq)
    rwa [hsame]
  rw [readStorePaths_eq_ok]
  simp only [hreferences]
  constructor
  · rintro ⟨hall, -⟩
    refine ⟨fun q hq => ?_, fun t ht => hall t (Or.inl ht)⟩
    obtain ⟨q', -, hparse⟩ := hall _ (Or.inr ⟨q, hq, rfl⟩)
    exact ((parse_cString_print store.toStoreDir q q').mp hparse).1
  · rintro ⟨hreadable, hold⟩
    have hback : ∀ q ∈ info.references,
        store.parseStorePath (cString (store.printStorePath q)) = .ok q :=
      fun q hq => (parse_cString_print store.toStoreDir q q).mpr ⟨hreadable q hq, rfl⟩
    refine ⟨?_, fun q hq => ⟨_, Or.inr ⟨q, hq, rfl⟩, hback q hq⟩⟩
    rintro t (ht | ⟨q, hq, rfl⟩)
    · exact hold t ht
    · exact ⟨q, hq, hback q hq⟩

variable (store) in
/-- What it takes for a registered info to be returned: its texts survive the
    database, and if the path was valid before, its deriver and references are
    those from before and no other info stays in the cache. -/
structure WillReadBack (s : LocalStore) (infos : ValidPathInfos) (info : ValidPathInfo) :
    Prop where
  sigs : ∀ sig ∈ info.sigs, sig.Listable
  references : ∀ q ∈ info.references, Readable q
  deriver_new : ¬ s.db.Valid (store.printStorePath info.path) →
    ∀ d, info.deriver = some d → Readable d
  deriver_old : ∀ row, s.db.queryPathInfo (store.printStorePath info.path) = some row →
    readDeriver store row.deriver = .ok info.deriver
  references_old : ∀ t, s.db.Refers (store.printStorePath info.path) t →
    ∃ q ∈ info.references, store.parseStorePath (cString t) = .ok q
  cached_old : s.db.Valid (store.printStorePath info.path) →
    ¬ s.pathInfoCache.Displaced (newEntries store s.db infos) info.path →
    ∀ v, s.pathInfoCache.find info.path = some v → ∃ info', v = some info' ∧ info'.Same info

/-- When all infos pass, every new one is entered in the cache. -/
theorem mem_entered_of_accepts {db : Db} {infos : ValidPathInfos} (h : Accepts store db infos)
    {info : ValidPathInfo} (hinfo : info ∈ infos.infos) :
    info ∈ entered store db infos.infos ↔ ¬ db.Valid (store.printStorePath info.path) := by
  refine ⟨fun hmem => (mem_entered hmem).2.2, fun hnew => ?_⟩
  have hall : infos.infos.takeWhile (passes store db) = infos.infos :=
    List.takeWhile_eq_self_iff.mpr h.passes
  rw [entered, hall]
  exact List.mem_filter.mpr ⟨hinfo, by simpa using hnew⟩

/-- What is cached for an info after the call. -/
theorem find_cacheAfter {s : LocalStore} {infos : ValidPathInfos} (h : Accepts store s.db infos)
    {info : ValidPathInfo} (hinfo : info ∈ infos.infos) :
    (cacheAfter s.pathInfoCache (entered store s.db infos.infos)).find info.path =
      if s.pathInfoCache.Displaced (newEntries store s.db infos) info.path then none
      else if s.db.Valid (store.printStorePath info.path) then s.pathInfoCache.find info.path
      else some (some info) := by
  have hnodup := nodup_newEntries store s.db infos
  by_cases hvalid : s.db.Valid (store.printStorePath info.path)
  · -- an updated info is not entered, and no other info has its path
    have hout : info.path ∉ (newEntries store s.db infos).map Prod.fst := by
      rw [newEntries, List.map_map]
      intro hmem
      obtain ⟨i, hi, hpath⟩ := List.mem_map.mp hmem
      have hnew := (mem_entered hi).2.2
      rw [show i.path = info.path from hpath] at hnew
      exact hnew hvalid
    rw [if_pos hvalid]
    exact s.pathInfoCache.find_upsertAll_of_not_mem hnodup hout
  · have hmem : (info.path, some info) ∈ newEntries store s.db infos :=
      List.mem_map_of_mem (f := fun i => (i.path, some i))
        ((mem_entered_of_accepts h hinfo).mpr hvalid)
    rw [if_neg hvalid]
    exact s.pathInfoCache.find_upsertAll_of_mem hnodup hmem

/-- After a registration, an info is returned from the cache and from the
    database exactly if its texts survive and nothing older is left of it. -/
theorem registerValidPaths_readsBack_iff (now : Int) (infos : ValidPathInfos) (s s' : LocalStore)
    (h : registerValidPaths store now infos s = .ok () s') (info : ValidPathInfo)
    (hinfo : info ∈ infos.infos) :
    ReadsBack store s' info ↔ WillReadBack store s infos info := by
  obtain ⟨hacc, hcache, hdb⟩ := (registerValidPaths_outcome infos s).of_ok rfl h
  rw [readsBack_iff, hcache, find_cacheAfter hacc hinfo]
  by_cases hvalid : s.db.Valid (store.printStorePath info.path)
  · -- the row is updated, and the cache is as far as it is not displaced
    obtain ⟨row, hrow⟩ := hvalid.query
    have hrow' := hdb.updated info hinfo row hrow
    rw [internal_same_iff hrow' rfl rfl rfl rfl rfl, readStorePaths_committed hdb hinfo hrow',
      if_pos hvalid]
    constructor
    · rintro ⟨hcached, hderiver, hsigs, hreadable, hold⟩
      refine ⟨hsigs, hreadable, fun hnew => absurd hvalid hnew, ?_, hold, ?_⟩
      · intro r hr
        rw [hrow, Option.some.injEq] at hr
        rw [← hr]
        exact hderiver
      · intro _ hkept v hv
        rw [if_neg hkept] at hcached
        exact hcached v hv
    · intro hwill
      refine ⟨?_, hwill.deriver_old row hrow, hwill.sigs, hwill.references, hwill.references_old⟩
      intro v hv
      by_cases hdisplaced : s.pathInfoCache.Displaced (newEntries store s.db infos) info.path
      · rw [if_pos hdisplaced] at hv
        cases hv
      · rw [if_neg hdisplaced] at hv
        exact hwill.cached_old hvalid hdisplaced v hv
  · -- the row and the cached info are new
    obtain ⟨id, hrow'⟩ := hdb.added info hinfo hvalid
    have hcached : ∀ v, (if s.pathInfoCache.Displaced (newEntries store s.db infos) info.path
        then none else if s.db.Valid (store.printStorePath info.path)
          then s.pathInfoCache.find info.path else some (some info)) = some v →
        ∃ info', v = some info' ∧ info'.Same info := by
      intro v hv
      rw [if_neg hvalid] at hv
      split at hv
      · cases hv
      · cases hv
        exact ⟨info, rfl, ValidPathInfo.Same.refl info⟩
    have hnone : ∀ t, ¬ s.db.Refers (store.printStorePath info.path) t :=
      fun t ht => hvalid ht.valid.1
    have hderiver := readDeriver_column store info
    rw [internal_same_iff hrow' rfl rfl rfl rfl rfl, readStorePaths_committed hdb hinfo hrow']
    show (_ ∧ readDeriver store (deriverColumn store info) = .ok info.deriver ∧ _) ↔ _
    rw [hderiver]
    constructor
    · rintro ⟨-, hread, hsigs, hreadable, -⟩
      refine ⟨hsigs, hreadable, fun _ => hread, ?_, fun t ht => absurd ht (hnone t),
        fun hv => absurd hv hvalid⟩
      intro row hrow
      exact absurd (Db.valid_of_query hrow) hvalid
    · intro hwill
      exact ⟨hcached, hwill.deriver_new hvalid, hwill.sigs, hwill.references,
        fun t ht => absurd ht (hnone t)⟩

-- ============================================================================
-- The row of a new path
-- ============================================================================

/-- The info that is to be read from the row of a new path. -/
def recorded (now : Int) (info : ValidPathInfo) : ValidPathInfo :=
  { info with registrationTime := if info.registrationTime = 0 then now else info.registrationTime }

/-- The texts of an info come out of the database as they went in. -/
structure TextsSurvive (info : ValidPathInfo) : Prop where
  keyNames : ∀ sig ∈ info.sigs, 0x20 ∉ sig.keyName ∧ 0 ∉ sig.keyName
  references : ∀ q ∈ info.references, Readable q
  deriver : ∀ d, info.deriver = some d → Readable d

/-- A parsed signature can be listed unless there is a space or a NUL in it. -/
theorem listable_iff_of_parsed {sigs : Finset Signature}
    (h : ∀ sig ∈ sigs, ∃ t, Signature.parse t = .ok sig) :
    (∀ sig ∈ sigs, sig.Listable) ↔ ∀ sig ∈ sigs, 0x20 ∉ sig.keyName ∧ 0 ∉ sig.keyName := by
  constructor
  · intro hall sig hsig
    exact (hall sig hsig).2.2.2
  · intro hall sig hsig
    obtain ⟨t, ht⟩ := h sig hsig
    obtain ⟨hkey, hne, hcolon, -⟩ := Signature.parse_eq_ok ht
    exact ⟨hkey, hne, hcolon, hall sig hsig⟩

/-- The registration time is read from its column. -/
theorem registrationTime_of_internal {db : Db} {path : StorePath} {row : ValidPathRow}
    {info : ValidPathInfo} (hrow : db.queryPathInfo (store.printStorePath path) = some row)
    (h : queryPathInfoInternal store db path = .ok (some info)) :
    info.registrationTime = row.registrationTime := by
  unfold queryPathInfoInternal at h
  rw [hrow] at h
  simp only [NixStore.bind_eq_ok, pure_eq_ok, Except.ok.injEq, Option.some.injEq] at h
  obtain ⟨_, -, _, -, _, -, _, -, _, -, rfl⟩ := h
  rfl

/-- The row of a new path is read back as the info it was written for exactly if
    the texts survive. -/
theorem registerValidPaths_row_iff (now : Int) (infos : ValidPathInfos) (s s' : LocalStore)
    (h : registerValidPaths store now infos s = .ok () s') (info : ValidPathInfo)
    (hinfo : info ∈ infos.infos) (hnew : ¬ s.db.Valid (store.printStorePath info.path))
    (hsigs : ∀ sig ∈ info.sigs, ∃ t, Signature.parse t = .ok sig) :
    queryPathInfoInternal store s'.db info.path = .ok (some (recorded now info)) ↔
      TextsSurvive info := by
  obtain ⟨-, -, hdb⟩ := (registerValidPaths_outcome infos s).of_ok rfl h
  obtain ⟨id, hrow⟩ := hdb.added info hinfo hnew
  -- up to the time, which is another column
  have hsame : queryPathInfoInternal store s'.db info.path = .ok (some (recorded now info)) ↔
      ∃ info', queryPathInfoInternal store s'.db info.path = .ok (some info') ∧ info'.Same info := by
    constructor
    · intro hread
      exact ⟨_, hread, rfl, rfl, rfl, rfl, rfl, rfl, rfl, rfl⟩
    · rintro ⟨info', hread, hsame⟩
      have htime := registrationTime_of_internal hrow hread
      obtain ⟨path, deriver, narHash, references, registrationTime, narSize, ultimate, sigs, ca⟩ := info'
      obtain ⟨rfl, rfl, rfl, rfl, rfl, rfl, rfl, rfl⟩ := hsame
      rw [hread, recorded]
      simp only [columns] at htime
      rw [htime]
  have hnone : ∀ t, ¬ s.db.Refers (store.printStorePath info.path) t := fun t ht => hnew ht.valid.1
  rw [hsame, internal_same_iff hrow rfl rfl rfl rfl rfl, readStorePaths_committed hdb hinfo hrow,
    listable_iff_of_parsed hsigs]
  show (readDeriver store (deriverColumn store info) = .ok info.deriver ∧ _) ↔ _
  rw [readDeriver_column store info]
  constructor
  · rintro ⟨hderiver, hkeys, hreferences, -⟩
    exact ⟨hkeys, hreferences, hderiver⟩
  · rintro ⟨hkeys, hreferences, hderiver⟩
    exact ⟨hderiver, hkeys, hreferences, fun t ht => absurd ht (hnone t)⟩

end LocalStore

namespace LocalStore
namespace Sample

open Effect

/-- A first registration of a path. -/
def first : ValidPathInfos := .single (info pathA ∅)

/-- What is known about the path later: a size and a deriver. -/
def betterInfo : ValidPathInfo := { info pathA ∅ with narSize := 120, deriver := some pathB }

/-- A second registration. -/
def second : ValidPathInfos := .single betterInfo

/-- Both calls return, and the first info stays in the cache. -/
theorem registered_twice :
    ∃ s s', registerValidPaths store 1 first (fresh 10) = .ok () s ∧
      registerValidPaths store 2 second s = .ok () s' ∧
      s'.pathInfoCache.find pathA = some (some (info pathA ∅)) := by
  have hboth : (match (registerValidPaths store 1 first >>= fun _ =>
      registerValidPaths store 2 second) (fresh 10) with
    | .ok _ s' => s'.pathInfoCache.find pathA
    | .error _ _ => none) = some (some (info pathA ∅)) := by decide +kernel
  cases hrun : (registerValidPaths store 1 first >>= fun _ =>
      registerValidPaths store 2 second) (fresh 10) with
  | ok u s' =>
      rw [hrun] at hboth
      obtain ⟨_, s, hfirst, hsecond⟩ := Effect.bind_eq_ok.mp hrun
      exact ⟨s, s', hfirst, hsecond, hboth⟩
  | error e s' =>
      rw [hrun] at hboth
      cases hboth

end Sample

/-- A first registration is read back. -/
theorem registerValidPaths_readsBack_first :
    ∃ s', registerValidPaths Sample.store 1 Sample.first (fresh 10) = .ok () s' ∧
      ReadsBack Sample.store s' (Sample.info Sample.pathA ∅) := by
  obtain ⟨s', -, hfirst, -⟩ := Sample.registered_twice
  refine ⟨s', hfirst, ?_⟩
  have hinvalid : ∀ t, (fresh 10).db.queryPathInfo t = none := fun _ => rfl
  refine (registerValidPaths_readsBack_iff 1 Sample.first (fresh 10) s' hfirst
    (Sample.info Sample.pathA ∅) List.mem_cons_self).mpr ⟨?_, ?_, ?_, ?_, ?_, ?_⟩
  · intro sig hsig
    exact absurd hsig (Finset.notMem_empty sig)
  · intro q hq
    exact absurd hq (Finset.notMem_empty q)
  · intro _ d hd
    cases hd
  · intro row hrow
    rw [hinvalid] at hrow
    cases hrow
  · intro t ht
    exact absurd ht.valid.1 (Db.queryPathInfo_eq_none.mp (hinvalid _))
  · intro hvalid
    exact absurd hvalid (Db.queryPathInfo_eq_none.mp (hinvalid _))

/-- The second registration of a path is not: its old info stays in the cache. -/
theorem registerValidPaths_stale_after_update :
    ∃ s s', registerValidPaths Sample.store 1 Sample.first (fresh 10) = .ok () s ∧
      registerValidPaths Sample.store 2 Sample.second s = .ok () s' ∧
      Sample.betterInfo ∈ Sample.second.infos ∧ ¬ ReadsBack Sample.store s' Sample.betterInfo := by
  obtain ⟨s, s', hfirst, hsecond, hcached⟩ := Sample.registered_twice
  refine ⟨s, s', hfirst, hsecond, List.mem_cons_self, fun hback => ?_⟩
  obtain ⟨info', heq, hsame⟩ := ((readsBack_iff s' _).mp hback).1 _ hcached
  cases heq
  exact absurd hsame.narSize_eq (by decide)

namespace Sample

/-- An info with a signature under a given key name and the largest size. -/
def signed (keyName : Bytes) : ValidPathInfo :=
  { info pathA {pathA} with
    narSize := 18446744073709551615, deriver := some pathB, sigs := {⟨keyName, [0]⟩} }

/-- Key names with these letters are parsed. -/
theorem signed_parsed (keyName t : Bytes)
    (h : (Signature.parse t).toOption = some ⟨keyName, [0]⟩) :
    ∀ sig ∈ (signed keyName).sigs, ∃ t, Signature.parse t = .ok sig := by
  intro sig hsig
  rw [Finset.mem_singleton.mp hsig]
  refine ⟨t, ?_⟩
  cases hparse : Signature.parse t with
  | ok sig' =>
      rw [hparse] at h
      exact congrArg Except.ok (Option.some.inj h)
  | error e =>
      rw [hparse] at h
      cases h

theorem signed_accepted (keyName : Bytes)
    (h : Effect.returns (registerValidPaths store 5 (.single (signed keyName)) (fresh 10)) = true) :
    ∃ s', registerValidPaths store 5 (.single (signed keyName)) (fresh 10) = .ok () s' := by
  obtain ⟨⟨⟩, s', hrun⟩ := Effect.ok_of_returns h
  exact ⟨s', hrun⟩

theorem fresh_not_valid (t : Bytes) : ¬ (fresh 10).db.Valid t := by
  rintro ⟨r, hr, -⟩
  exact absurd hr List.not_mem_nil

end Sample

/-- A signature under the key `cache-1`. -/
theorem registerValidPaths_row_signed : ∃ s',
    registerValidPaths Sample.store 5 (.single (Sample.signed (ascii "cache-1"))) (fresh 10)
      = .ok () s' ∧
    queryPathInfoInternal Sample.store s'.db Sample.pathA
      = .ok (some (recorded 5 (Sample.signed (ascii "cache-1")))) := by
  obtain ⟨s', hrun⟩ := Sample.signed_accepted (ascii "cache-1") (by decide +kernel)
  refine ⟨s', hrun, (registerValidPaths_row_iff 5 _ _ s' hrun (Sample.signed (ascii "cache-1"))
    List.mem_cons_self (Sample.fresh_not_valid _) (Sample.signed_parsed (ascii "cache-1")
      (ascii "cache-1:AA==") (by decide +kernel))).mpr ⟨?_, ?_, ?_⟩⟩
  · decide
  · decide +kernel
  · rintro d ⟨⟩
    decide +kernel

/-- A key name with a space in it is parsed, but not read back. -/
theorem registerValidPaths_row_spaced :
    (∀ sig ∈ (Sample.signed (ascii "my cache")).sigs, ∃ t, Signature.parse t = .ok sig) ∧ ∃ s',
    registerValidPaths Sample.store 5 (.single (Sample.signed (ascii "my cache"))) (fresh 10)
      = .ok () s' ∧
    queryPathInfoInternal Sample.store s'.db Sample.pathA
      ≠ .ok (some (recorded 5 (Sample.signed (ascii "my cache")))) := by
  have hparsed := Sample.signed_parsed (ascii "my cache") (ascii "my cache:AA==") (by decide +kernel)
  obtain ⟨s', hrun⟩ := Sample.signed_accepted (ascii "my cache") (by decide +kernel)
  refine ⟨hparsed, s', hrun, fun hread => ?_⟩
  have hnew : ¬ (fresh 10).db.Valid
      (Sample.store.printStorePath (Sample.signed (ascii "my cache")).path) :=
    Sample.fresh_not_valid _
  have hinfo : Sample.signed (ascii "my cache") ∈
      (ValidPathInfos.single (Sample.signed (ascii "my cache"))).infos := List.mem_cons_self
  obtain ⟨-, -, hdb⟩ := (registerValidPaths_outcome _ _).of_ok rfl hrun
  obtain ⟨id, hrow⟩ := hdb.added _ hinfo hnew
  -- the list is split at the space
  have hsame : ∃ info', queryPathInfoInternal Sample.store s'.db
      (Sample.signed (ascii "my cache")).path = .ok (some info') ∧
        info'.Same (Sample.signed (ascii "my cache")) :=
    ⟨_, hread, rfl, rfl, rfl, rfl, rfl, rfl, rfl, rfl⟩
  obtain ⟨-, hlist, -⟩ := (internal_same_iff hrow rfl rfl rfl rfl rfl).mp hsame
  exact absurd (hlist ⟨ascii "my cache", [0]⟩ (Finset.mem_singleton.mpr rfl)).2.2.2.1 (by decide)

end LocalStore
end NixStore
