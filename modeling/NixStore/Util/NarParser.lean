/-
  NixStore.Util.NarParser

  The parser against the grammar: `parse` succeeds exactly on the encodings
  of legal nodes, makes exactly the sink calls `NarNode.feed` lists, and
  leaves exactly the bytes behind the encoding (`parse_eq_ok`,
  `parseDump_eq_ok`).  This holds for every sink, whether it reads file
  contents or skips them; only what is demanded of the file bodies differs
  (`NarNode.BodyOk`).
-/

import NixStore.Util.NarGrammar

namespace NixStore
namespace NarNode

open Wire

/-! ## Reading one string, one body -/

theorem expectTag_eq_ok {expected : String} {source rest : Bytes}
    (hlen : (ascii expected).length ≤ narMaxTag) :
    expectTag expected source = .ok rest ↔ source = tag expected ++ rest := by
  simp only [expectTag, bind_eq_ok, Prod.exists, readString_eq_ok, throwIf_eq_ok, pure_eq_ok,
    ne_eq, Decidable.not_not]
  constructor
  · rintro ⟨got, source', ⟨-, -, rfl⟩, -, rfl, h⟩
    cases h
    rfl
  · rintro rfl
    have hlt : (ascii expected).length < 2 ^ 64 := lt_of_le_of_lt hlen (by decide)
    exact ⟨ascii expected, rest, ⟨hlen, hlt, rfl⟩, (), rfl, rfl⟩

section Drain

variable {σ : Type} {write : Bytes → σ → Except Error σ}

/-- Draining takes `len` bytes off the source, or fails. -/
theorem drainInto_length {rounds len : Nat} {source rest : Bytes} {st st' : σ}
    (hrounds : len ≤ rounds) (h : drainInto write rounds len source st = .ok (rest, st')) :
    len ≤ source.length ∧ rest = source.drop len := by
  induction rounds generalizing len source st with
  | zero =>
      obtain rfl : len = 0 := by omega
      simp only [drainInto, Except.ok.injEq, Prod.mk.injEq] at h
      exact ⟨Nat.zero_le _, by rw [List.drop_zero, h.1]⟩
  | succ rounds ih =>
      cases len with
      | zero =>
          simp only [drainInto, Except.ok.injEq, Prod.mk.injEq] at h
          exact ⟨Nat.zero_le _, by rw [List.drop_zero, h.1]⟩
      | succ len =>
          simp only [drainInto, bind_eq_ok, throwIf_eq_ok] at h
          obtain ⟨-, hne, st₁, -, hrest⟩ := h
          have hpos : 0 < source.length := List.length_pos_iff.mpr hne
          obtain ⟨hle, hdrop⟩ := ih (by omega) hrest
          rw [List.length_drop] at hle
          refine ⟨by omega, ?_⟩
          rw [hdrop, List.drop_drop]
          congr 1
          omega

/-- Draining does not look past the bytes it takes. -/
theorem drainInto_append (rounds : Nat) {len : Nat} {c : Bytes} (rest : Bytes) (st : σ)
    (hc : c.length = len) :
    drainInto write rounds len (c ++ rest) st =
      (drainInto write rounds len c st).map fun r => (r.1 ++ rest, r.2) := by
  induction rounds generalizing len c st with
  | zero => cases len <;> rfl
  | succ rounds ih =>
      cases len with
      | zero => rfl
      | succ len =>
          have hne : c ≠ [] := by
            intro h
            rw [h] at hc
            cases hc
          have hne' : c ++ rest ≠ [] := by simp [hne]
          have hn : min (min (len + 1) 65536) (c ++ rest).length
              = min (min (len + 1) 65536) c.length := by
            rw [List.length_append]
            omega
          have hle : min (min (len + 1) 65536) c.length ≤ c.length := Nat.min_le_right _ _
          simp only [drainInto, hne, hne', throwIf, if_false, ok_bind, hn,
            List.take_append_of_le_length hle, List.drop_append_of_le_length hle]
          cases write (c.take (min (min (len + 1) 65536) c.length)) st with
          | error e => rfl
          | ok st₁ => exact ih st₁ (by rw [List.length_drop, hc])

end Drain

section Grammar

variable {σ : Type} (sink : FileSystemObjectSink σ) (cfg : ArchiveSettings)

/-- Draining a whole body is feeding it. -/
theorem drainInto_body (path : NodePath) {source rest : Bytes} {size : Nat} {st st' : σ} :
    drainInto (sink.write path) size size source st = .ok (rest, st') ↔
      ∃ c : Bytes, c.length = size ∧ source = c ++ rest ∧ feedContents sink path c st = .ok st' := by
  constructor
  · intro h
    obtain ⟨hle, rfl⟩ := drainInto_length (Nat.le_refl size) h
    have hc : (source.take size).length = size := by rw [List.length_take]; omega
    refine ⟨source.take size, hc, (List.take_append_drop size source).symm, ?_⟩
    rw [← List.take_append_drop size source, drainInto_append size _ st hc] at h
    unfold feedContents
    rw [hc]
    cases hd : drainInto (sink.write path) size size (source.take size) st with
    | error e => rw [hd] at h; cases h
    | ok r =>
        rw [hd] at h
        simp only [Except.map, Except.ok.injEq, Prod.mk.injEq] at h
        simp only [Except.map, h.2]
  · rintro ⟨c, rfl, rfl, hfeed⟩
    rw [drainInto_append c.length rest st rfl]
    unfold feedContents at hfeed
    cases hd : drainInto (sink.write path) c.length c.length c st with
    | error e => rw [hd] at hfeed; cases hfeed
    | ok r =>
        obtain ⟨left, st₁⟩ := r
        rw [hd] at hfeed
        simp only [Except.map, Except.ok.injEq] at hfeed
        obtain ⟨-, hr⟩ := drainInto_length (Nat.le_refl _) hd
        rw [List.drop_length] at hr
        simp [Except.map, hr, hfeed]

theorem alignUp8_eq_ok {val left : Nat} :
    alignUp8 val = .ok left ↔ val ≤ 2 ^ 64 - 8 ∧ left = val + padLen val := by
  have hround : (val + 8 - 1) / 8 * 8 = val + padLen val := by
    unfold padLen
    omega
  simp only [alignUp8, bind_eq_ok, throwIf_eq_ok, pure_eq_ok, hround, Except.ok.injEq]
  constructor
  · rintro ⟨-, hle, rfl⟩
    exact ⟨by omega, rfl⟩
  · rintro ⟨hle, rfl⟩
    exact ⟨(), by omega, rfl⟩

theorem writePadding_length (n : Nat) : (writePadding n).length = padLen n := by
  rw [writePadding_eq_replicate, List.length_replicate]

/-- `parseContents` accepts a size, that many bytes and their padding. -/
theorem parseContents_eq_ok {path : NodePath} {source rest : Bytes} {st st' : σ} :
    parseContents sink path source st = .ok (rest, st') ↔
      ∃ c p : Bytes, c.length < 2 ^ 64 ∧ p.length = padLen c.length ∧
        source = writeNum c.length ++ (c ++ (p ++ rest)) ∧ BodyOk sink.skipContents c p ∧
        feedBody sink path c st = .ok st' := by
  simp only [parseContents, feedBody, bind_eq_ok, Prod.exists, readNum_eq_ok, BodyOk]
  cases hskip : sink.skipContents with
  | true =>
      simp only [if_true, bind_eq_ok, alignUp8_eq_ok, skip, Prod.exists, readExact_eq_ok,
        pure_eq_ok, Except.ok.injEq, Prod.mk.injEq]
      constructor
      · rintro ⟨size, source₁, ⟨hsize, rfl⟩, st₁, hpre, left, ⟨hle, rfl⟩, source₂,
          ⟨bs, source₃, ⟨rfl, hlen⟩, rfl⟩, rfl, rfl⟩
        have hc : (bs.take size).length = size := by rw [List.length_take]; omega
        refine ⟨bs.take size, bs.drop size, by omega, ?_, ?_, by omega, st₁, ?_, rfl⟩
        · rw [hc, List.length_drop]
          omega
        · rw [hc, ← List.append_assoc (bs.take size), List.take_append_drop]
        · rw [hc]
          exact hpre
      · rintro ⟨c, p, hc, hp, rfl, hle, st₁, hpre, rfl⟩
        exact ⟨c.length, c ++ (p ++ rest), ⟨hc, rfl⟩, st₁, hpre, c.length + padLen c.length,
          ⟨hle, rfl⟩, rest, ⟨c ++ p, rest, ⟨by simp, by simp [hp]⟩, rfl⟩, rfl, rfl⟩
  | false =>
      simp only [Bool.false_eq_true, if_false, bind_eq_ok, Prod.exists, drainInto_body,
        readPadding_eq_ok, pure_eq_ok, Except.ok.injEq, Prod.mk.injEq]
      constructor
      · rintro ⟨size, source₁, ⟨hsize, rfl⟩, st₁, hpre, source₂, st₂, ⟨c, rfl, rfl, hfeed⟩,
          source₃, rfl, rfl, rfl⟩
        exact ⟨c, writePadding c.length, hsize, writePadding_length _, rfl, rfl, st₁, hpre, hfeed⟩
      · rintro ⟨c, p, hc, hp, rfl, rfl, st₁, hpre, hfeed⟩
        exact ⟨c.length, c ++ (writePadding c.length ++ rest), ⟨hc, rfl⟩, st₁, hpre,
          writePadding c.length ++ rest, st', ⟨c, rfl, rfl, hfeed⟩, rest, rfl, rfl, rfl⟩

/-- The bytes of a regular file after its type. -/
def encodeRegular (executable : Bool) (contents pad : Bytes) : Bytes :=
  (if executable then tag "executable" ++ tag "" else []) ++
    (tag "contents" ++ (writeNum contents.length ++ (contents ++ (pad ++ tag ")"))))

theorem parseExecutable_eq_ok {path : NodePath} {t t' source rest : Bytes} {st st' : σ} :
    parseExecutable sink path t source st = .ok (t', rest, st') ↔
      (t ≠ ascii "executable" ∧ t' = t ∧ rest = source ∧ st' = st) ∨
      (t = ascii "executable" ∧ t'.length ≤ narMaxTag ∧
        source = tag "" ++ (writeString t' ++ rest) ∧ sink.isExecutable path st = .ok st') := by
  by_cases ht : t = ascii "executable"
  · simp only [parseExecutable, ht, if_true, bind_eq_ok, Prod.exists, readString_eq_ok,
      throwIf_eq_ok, ne_eq, Decidable.not_not, pure_eq_ok, Except.ok.injEq, Prod.mk.injEq,
      not_true_eq_false, false_and, false_or, true_and]
    constructor
    · rintro ⟨s2, source₁, ⟨-, -, rfl⟩, -, rfl, st₁, hx, t'', source₂, ⟨hlen, -, rfl⟩, rfl, rfl, rfl⟩
      exact ⟨hlen, rfl, hx⟩
    · rintro ⟨hlen, rfl, hx⟩
      have hlt : t'.length < 2 ^ 64 := lt_of_le_of_lt hlen (by decide)
      exact ⟨[], _, ⟨by decide, by decide, rfl⟩, (), rfl, st', hx, t', rest, ⟨hlen, hlt, rfl⟩,
        rfl, rfl, rfl⟩
  · simp only [parseExecutable, ht, if_false, Except.ok.injEq, Prod.mk.injEq, ne_eq,
      not_false_eq_true, true_and, false_and, or_false]
    constructor
    · rintro ⟨rfl, rfl, rfl⟩
      exact ⟨rfl, rfl, rfl⟩
    · rintro ⟨rfl, rfl, rfl⟩
      exact ⟨rfl, rfl, rfl⟩

theorem parseRegular_eq_ok {path : NodePath} {source rest : Bytes} {st st' : σ} :
    parseRegular sink path source st = .ok (rest, st') ↔
      ∃ (e : Bool) (c p : Bytes), c.length < 2 ^ 64 ∧ p.length = padLen c.length ∧
        source = encodeRegular e c p ++ rest ∧ BodyOk sink.skipContents c p ∧
        feed sink cfg path (.regular e c p) st = .ok st' := by
  have hclose : (ascii ")").length ≤ narMaxTag := by decide
  have hexec : ascii "contents" ≠ ascii "executable" := by decide
  simp only [feed, parseRegular, bind_eq_ok, Prod.exists, readString_eq_ok, throwIf_eq_ok,
    parseExecutable_eq_ok, parseContents_eq_ok, expectTag_eq_ok hclose, pure_eq_ok, ne_eq,
    Decidable.not_not, Except.ok.injEq, Prod.mk.injEq]
  constructor
  · rintro ⟨st₁, hcreate, t, source₁, ⟨-, -, rfl⟩, t', source₂, st₂, hmark, -, rfl, source₃, st₃,
      ⟨c, p, hc, hp, rfl, hbody, hfeed⟩, source₄, rfl, st₄, hfin, rfl, rfl⟩
    rcases hmark with ⟨-, rfl, rfl, rfl⟩ | ⟨rfl, -, rfl, hx⟩
    · refine ⟨false, c, p, hc, hp, ?_, hbody, st₂, hcreate, st₂, rfl, st₃, hfeed, hfin⟩
      simp [encodeRegular, tag]
    · refine ⟨true, c, p, hc, hp, ?_, hbody, st₁, hcreate, st₂, hx, st₃, hfeed, hfin⟩
      simp [encodeRegular, tag]
  · rintro ⟨e, c, p, hc, hp, rfl, hbody, st₁, hcreate, st₂, hx, st₃, hfeed, hfin⟩
    cases e with
    | true =>
        refine ⟨st₁, hcreate, ascii "executable", _,
          ⟨by decide, by decide, ?_⟩, ascii "contents", _, st₂,
          Or.inr ⟨rfl, by decide, rfl, hx⟩, (), rfl, _, st₃,
          ⟨c, p, hc, hp, rfl, hbody, hfeed⟩, rest, rfl, st', hfin, rfl, rfl⟩
        simp [encodeRegular, tag]
    | false =>
        simp only [feedExecutable, Bool.false_eq_true, if_false, Except.ok.injEq] at hx
        refine ⟨st₁, hcreate, ascii "contents", _, ⟨by decide, by decide, ?_⟩,
          ascii "contents", _, st₂, Or.inl ⟨hexec, rfl, rfl, hx.symm⟩, (), rfl, _, st₃,
          ⟨c, p, hc, hp, rfl, hbody, hfeed⟩, rest, rfl, st', hfin, rfl, rfl⟩
        simp [encodeRegular, tag]

theorem parseSymlink_eq_ok {path : NodePath} {source rest : Bytes} {st st' : σ} :
    parseSymlink sink path source st = .ok (rest, st') ↔
      ∃ t : Bytes, t ≠ [] ∧ 0 ∉ t ∧ t.length ≤ narMaxTarget ∧
        source = tag "target" ++ (writeString t ++ (tag ")" ++ rest)) ∧
        feed sink cfg path (.symlink t) st = .ok st' := by
  have hclose : (ascii ")").length ≤ narMaxTag := by decide
  have htarget : (ascii "target").length ≤ narMaxTag := by decide
  simp only [feed, parseSymlink, bind_eq_ok, Prod.exists, readString_eq_ok, throwIf_eq_ok,
    expectTag_eq_ok hclose, expectTag_eq_ok htarget, pure_eq_ok, Except.ok.injEq, Prod.mk.injEq,
    not_or]
  constructor
  · rintro ⟨source₁, rfl, t, source₂, ⟨hlen, -, rfl⟩, -, ⟨hne, hnul⟩, st₁, hst, source₃, rfl, rfl, rfl⟩
    exact ⟨t, hne, hnul, hlen, rfl, hst⟩
  · rintro ⟨t, hne, hnul, hlen, rfl, hst⟩
    have hlt : t.length < 2 ^ 64 := lt_of_le_of_lt hlen (by decide)
    exact ⟨_, rfl, t, _, ⟨hlen, hlt, rfl⟩, (), ⟨hne, hnul⟩, st', hst, rest, rfl, rfl, rfl⟩

/-! ## Directories -/

/-- What a node parser must satisfy for the directory loop around it: it
    accepts exactly the legal nodes at this level. -/
def ParsesNodes (levels : Nat)
    (parseNode : NodePath → Bytes → σ → Except Error (Bytes × σ)) : Prop :=
  ∀ {path : NodePath} {source rest : Bytes} {st st' : σ},
    parseNode path source st = .ok (rest, st') ↔
      ∃ x : NarNode, x.Legal levels ∧ source = x.encode ++ rest ∧
        x.AllFiles (BodyOk sink.skipContents) ∧ feed sink cfg path x st = .ok st'

theorem parseEntries_sound {levels : Nat}
    {parseNode : NodePath → Bytes → σ → Except Error (Bytes × σ)}
    (hnode : ParsesNodes sink cfg levels parseNode) {path : NodePath} {rounds : Nat}
    {names : List (Bytes × Nat)} {prev source rest : Bytes} {st st' : σ}
    (h : parseEntries cfg parseNode path rounds names prev source st = .ok (rest, st')) :
    ∃ es : List (Bytes × NarNode), LegalEntries levels prev es ∧
      source = encodeEntries es ++ (tag ")" ++ rest) ∧
      AllFilesEntries (BodyOk sink.skipContents) es ∧ feedEntries sink cfg path names es st = .ok st' := by
  unfold ParsesNodes at hnode
  have hopen : (ascii "(").length ≤ narMaxTag := by decide
  have hclose : (ascii ")").length ≤ narMaxTag := by decide
  have hname : (ascii "name").length ≤ narMaxTag := by decide
  have hntag : (ascii "node").length ≤ narMaxTag := by decide
  induction rounds generalizing names prev source st with
  | zero => cases h
  | succ rounds ih =>
      simp only [parseEntries, bind_eq_ok, Prod.exists, readString_eq_ok] at h
      obtain ⟨t, source₁, ⟨-, -, rfl⟩, h⟩ := h
      by_cases ht : t = ascii ")"
      · rw [if_pos ht] at h
        cases h
        exact ⟨[], trivial, by rw [ht]; rfl, trivial, rfl⟩
      · rw [if_neg ht] at h
        simp only [bind_eq_ok, Prod.exists, throwIf_eq_ok, expectTag_eq_ok hopen,
          expectTag_eq_ok hclose, expectTag_eq_ok hname, expectTag_eq_ok hntag, readString_eq_ok,
          hnode, ne_eq, Decidable.not_not] at h
        obtain ⟨-, rfl, source₂, rfl, source₃, rfl, name, source₄, ⟨hlen, -, rfl⟩, -, hvalid, -,
          hsorted, onDisk, names₁, hentry, source₅, rfl, source₆, st₁,
          ⟨x, hlegal, rfl, hbody, hfeed⟩, source₇, rfl, hrest⟩ := h
        obtain ⟨es, hes, rfl, hbodies, hfeeds⟩ := ih hrest
        refine ⟨(name, x) :: es, ⟨hlen, hvalid, List.not_le.mp hsorted, hlegal, hes⟩, ?_,
          ⟨hbody, hbodies⟩, ?_⟩
        · simp [encodeEntries, tag]
        · simp only [feedEntries, hentry, hfeed, ok_bind, hfeeds]

theorem parseEntries_complete {levels : Nat}
    {parseNode : NodePath → Bytes → σ → Except Error (Bytes × σ)}
    (hnode : ParsesNodes sink cfg levels parseNode) {path : NodePath} {rounds : Nat}
    {names : List (Bytes × Nat)} {prev rest : Bytes} {st st' : σ} {es : List (Bytes × NarNode)}
    (hrounds : es.length < rounds) (hlegal : LegalEntries levels prev es)
    (hbody : AllFilesEntries (BodyOk sink.skipContents) es)
    (hfeed : feedEntries sink cfg path names es st = .ok st') :
    parseEntries cfg parseNode path rounds names prev (encodeEntries es ++ (tag ")" ++ rest)) st
      = .ok (rest, st') := by
  unfold ParsesNodes at hnode
  have hopen : (ascii "(").length ≤ narMaxTag := by decide
  have hclose : (ascii ")").length ≤ narMaxTag := by decide
  have hname : (ascii "name").length ≤ narMaxTag := by decide
  have hntag : (ascii "node").length ≤ narMaxTag := by decide
  induction es generalizing rounds names prev st with
  | nil =>
      obtain ⟨rounds, rfl⟩ : ∃ n, rounds = n + 1 := ⟨rounds - 1, by simp at hrounds; omega⟩
      simp only [feedEntries, Except.ok.injEq] at hfeed
      simp only [parseEntries, bind_eq_ok, Prod.exists, readString_eq_ok, encodeEntries,
        List.nil_append]
      refine ⟨ascii ")", rest, ⟨by decide, by decide, rfl⟩, ?_⟩
      rw [if_pos rfl, hfeed]
      rfl
  | cons e es ih =>
      obtain ⟨name, x⟩ := e
      obtain ⟨rounds, rfl⟩ : ∃ n, rounds = n + 1 := ⟨rounds - 1, by simp at hrounds; omega⟩
      obtain ⟨hlen, hvalid, hsorted, hx, hes⟩ := hlegal
      simp only [feedEntries, bind_eq_ok, Prod.exists] at hfeed
      obtain ⟨onDisk, names₁, hentry, st₁, hfeedx, hfeeds⟩ := hfeed
      have hlt : name.length < 2 ^ 64 := lt_of_le_of_lt hlen (by decide)
      simp only [parseEntries, bind_eq_ok, Prod.exists, readString_eq_ok, encodeEntries,
        List.append_assoc]
      refine ⟨ascii "entry", _, ⟨by decide, by decide, rfl⟩, ?_⟩
      rw [if_neg (by decide)]
      simp only [bind_eq_ok, Prod.exists, throwIf_eq_ok, expectTag_eq_ok hopen,
        expectTag_eq_ok hclose, expectTag_eq_ok hname, expectTag_eq_ok hntag, readString_eq_ok,
        hnode, ne_eq, Decidable.not_not]
      exact ⟨(), trivial, _, rfl, _, rfl, name, _, ⟨hlen, hlt, rfl⟩, (), hvalid, (),
        List.not_le.mpr hsorted, onDisk, names₁, hentry, _, rfl, _, st₁,
        ⟨x, hx, rfl, hbody.1, hfeedx⟩, _, rfl,
        ih (by simp at hrounds; omega) hes hbody.2 hfeeds⟩

/-- A round per byte is more than a round per entry. -/
theorem length_le_encodeEntries (es : List (Bytes × NarNode)) :
    es.length ≤ (encodeEntries es).length := by
  induction es with
  | nil => exact Nat.zero_le _
  | cons e es ih =>
      obtain ⟨name, x⟩ := e
      have hpos : 0 < (tag "entry").length := by decide
      simp only [encodeEntries, List.length_append, List.length_cons]
      omega

/-! ## Whole archives -/

/-- `parse` accepts exactly the legal nodes, and does what `feed` says. -/
theorem parse_eq_ok (levels : Nat) : ParsesNodes sink cfg levels (parse cfg sink levels) := by
  have hopen : (ascii "(").length ≤ narMaxTag := by decide
  have htype : (ascii "type").length ≤ narMaxTag := by decide
  induction levels with
  | zero =>
      intro path source rest st st'
      constructor
      · intro h
        cases h
      · rintro ⟨x, hlegal, -⟩
        cases x with
        | regular e c p => exact absurd hlegal.1 (Nat.lt_irrefl 0)
        | directory es => exact absurd hlegal.1 (Nat.lt_irrefl 0)
        | symlink t => exact absurd hlegal.1 (Nat.lt_irrefl 0)
  | succ levels ih =>
      intro path source rest st st'
      simp only [parse, bind_eq_ok, Prod.exists, expectTag_eq_ok hopen, expectTag_eq_ok htype,
        readString_eq_ok]
      constructor
      · rintro ⟨source₁, rfl, source₂, rfl, type, source₃, ⟨-, -, rfl⟩, h⟩
        by_cases hreg : type = ascii "regular"
        · rw [if_pos hreg, parseRegular_eq_ok] at h
          obtain ⟨e, c, p, hc, hp, rfl, hbody, hfeed⟩ := h
          refine ⟨.regular e c p, ⟨Nat.succ_pos _, hc, hp⟩, ?_, hbody, hfeed⟩
          rw [hreg]
          simp [encode, encodeRegular, tag]
        · rw [if_neg hreg] at h
          by_cases hdir : type = ascii "directory"
          · rw [if_pos hdir, bind_eq_ok] at h
            obtain ⟨st₁, hcreate, h⟩ := h
            obtain ⟨es, hes, rfl, hbodies, hfeeds⟩ := parseEntries_sound sink cfg ih h
            refine ⟨.directory es, ⟨Nat.succ_pos _, hes⟩, ?_, hbodies, ?_⟩
            · rw [hdir]
              simp [encode, tag]
            · simp only [feed, hcreate, ok_bind, hfeeds]
          · rw [if_neg hdir] at h
            by_cases hsym : type = ascii "symlink"
            · rw [if_pos hsym, parseSymlink_eq_ok] at h
              obtain ⟨t, hne, hnul, hlen, rfl, hfeed⟩ := h
              refine ⟨.symlink t, ⟨Nat.succ_pos _, hne, hnul, hlen⟩, ?_, trivial, hfeed⟩
              rw [hsym]
              simp [encode, tag]
            · rw [if_neg hsym] at h
              cases h
      · rintro ⟨x, hlegal, rfl, hbody, hfeed⟩
        cases x with
        | regular e c p =>
            refine ⟨_, by simp only [encode, List.append_assoc]; rfl, _, rfl, ascii "regular", _,
              ⟨by decide, by decide, rfl⟩, ?_⟩
            rw [if_pos rfl, parseRegular_eq_ok]
            exact ⟨e, c, p, hlegal.2.1, hlegal.2.2, by simp [encodeRegular], hbody, hfeed⟩
        | directory es =>
            simp only [feed, bind_eq_ok] at hfeed
            obtain ⟨st₁, hcreate, hfeeds⟩ := hfeed
            refine ⟨_, by simp only [encode, List.append_assoc]; rfl, _, rfl, ascii "directory", _,
              ⟨by decide, by decide, rfl⟩, ?_⟩
            rw [if_neg (by decide), if_pos rfl, bind_eq_ok]
            refine ⟨st₁, hcreate, parseEntries_complete sink cfg ih ?_ hlegal.2 hbody hfeeds⟩
            have hle := length_le_encodeEntries es
            rw [List.length_append]
            omega
        | symlink t =>
            refine ⟨_, by simp only [encode, List.append_assoc]; rfl, _, rfl, ascii "symlink", _,
              ⟨by decide, by decide, rfl⟩, ?_⟩
            rw [if_neg (by decide), if_neg (by decide), if_pos rfl, parseSymlink_eq_ok]
            exact ⟨t, hlegal.2.1, hlegal.2.2.1, hlegal.2.2.2, rfl, hfeed⟩

theorem readVersion_eq_magic {source rest : Bytes} :
    readVersion source = .ok (narVersionMagic1, rest) ↔
      source = writeString narVersionMagic1 ++ rest := by
  have hread : readString narVersionMagic1.length source = .ok (narVersionMagic1, rest) ↔
      source = writeString narVersionMagic1 ++ rest := by
    rw [readString_eq_ok]
    exact ⟨fun h => h.2.2, fun h => ⟨Nat.le_refl _, by decide, h⟩⟩
  rw [← hread, readVersion]
  cases readString narVersionMagic1.length source with
  | ok r => exact Iff.rfl
  | error e =>
      by_cases he : ∃ msg, e = .serialisation msg
      · -- the empty version string is not the magic
        obtain ⟨msg, rfl⟩ := he
        have hmagic : [] ≠ narVersionMagic1 := by decide
        simp [hmagic]
      · cases e with
        | serialisation msg => exact absurd ⟨msg, rfl⟩ he
        | _ => exact Iff.rfl

/-- `parseDump` accepts exactly the archives of legal nodes. -/
theorem parseDump_eq_ok {source rest : Bytes} {st st' : σ} :
    parseDump cfg sink source st = .ok (rest, st') ↔
      ∃ x : NarNode, x.Legal narMaxDepth ∧
        source = writeString narVersionMagic1 ++ (x.encode ++ rest) ∧
        x.AllFiles (BodyOk sink.skipContents) ∧ feed sink cfg [] x st = .ok st' := by
  have hparse := @parse_eq_ok σ sink cfg narMaxDepth
  unfold ParsesNodes at hparse
  simp only [parseDump, bind_eq_ok, Prod.exists, throwIf_eq_ok, ne_eq, Decidable.not_not, hparse]
  constructor
  · rintro ⟨version, source₁, hver, -, rfl, x, hlegal, rfl, hbody, hfeed⟩
    exact ⟨x, hlegal, readVersion_eq_magic.mp hver, hbody, hfeed⟩
  · rintro ⟨x, hlegal, rfl, hbody, hfeed⟩
    exact ⟨narVersionMagic1, x.encode ++ rest, readVersion_eq_magic.mpr rfl, (), rfl, x, hlegal,
      rfl, hbody, hfeed⟩

end Grammar

end NarNode
end NixStore
