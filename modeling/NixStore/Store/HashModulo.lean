/-
  NixStore.Store.HashModulo

  What `HashModuloSink` feeds to its hash determines the tree.

  The sink gets the archive of a tree, zeroes every occurrence of the modulus
  and appends the positions.  An occurrence never touches the framing: every
  name, target or file body stands between two bytes that are not in the
  alphabet of hash parts (the top byte of its length in front, padding or the
  length of the next keyword behind), and the framing in between is too short
  to hold one.  So the zeroed archive is the archive of the zeroed tree
  (`segment_encode`), which is self-delimiting, and from its text and the
  positions the archive is recovered.

  Positions are 64-bit numbers.  The argument needs them not to wrap, and in
  an archive of more than 2 ^ 64 bytes they do (`WrappedArchive`).
-/

import NixStore.Store.References
import NixStore.Util.BaseNix32
import NixStore.Util.NarRoundTrip

namespace NixStore
namespace HashModulo

open Sweep Wire NarNode

/-- The sweep a `HashModuloSink` makes. -/
def zeroOut (modulus : HashPart) (p : Nat) (s : Bytes) : Bytes × List Nat :=
  sweep modulus.chars (List.replicate modulus.chars.length 0) p s

section Segments

variable {modulus : HashPart}

/-! ## Segments -/

variable (modulus) in
/-- Wherever `c` stands it becomes `z`, with occurrences at `hits` (counted
    from its start), and what is in front and behind is swept on its own. -/
def Segment (c z : Bytes) (hits : List Nat) : Prop :=
  ∀ (p : Nat) (a d : Bytes), zeroOut modulus p (a ++ (c ++ d)) =
    ((zeroOut modulus p a).1 ++ (z ++ (zeroOut modulus (p + a.length + c.length) d).1),
     (zeroOut modulus p a).2 ++ (hits.map (· + (p + a.length)) ++
       (zeroOut modulus (p + a.length + c.length) d).2))

variable (modulus) in
/-- A segment the sweep leaves alone. -/
def Inert (c : Bytes) : Prop := Segment modulus c c []

theorem size_eq (modulus : HashPart) :
    modulus.chars.length = (List.replicate modulus.chars.length (0 : UInt8)).length :=
  List.length_replicate.symm

theorem map_add_map_add (hits : List Nat) (m n : Nat) :
    (hits.map (· + m)).map (· + n) = hits.map (· + (n + m)) := by
  rw [List.map_map]
  congr 1
  funext x
  simp only [Function.comp_apply]
  omega

@[simp] theorem zeroOut_nil (p : Nat) : zeroOut modulus p [] = ([], []) := rfl

/-- Segments follow one another. -/
theorem Segment.append {c z c' z' : Bytes} {hits hits' : List Nat} (h : Segment modulus c z hits)
    (h' : Segment modulus c' z' hits') :
    Segment modulus (c ++ c') (z ++ z') (hits ++ hits'.map (· + c.length)) := by
  intro p a d
  have hrest := h' (p + a.length + c.length) [] d
  simp only [zeroOut_nil, List.nil_append, List.length_nil, Nat.add_zero] at hrest
  rw [List.append_assoc, h p a (c' ++ d), hrest, List.map_append, map_add_map_add,
    List.length_append, ← Nat.add_assoc]
  simp only [List.append_assoc]

theorem Inert.append {c c' : Bytes} (h : Inert modulus c) (h' : Inert modulus c') :
    Inert modulus (c ++ c') := Segment.append h h'

/-- A byte outside the alphabet is a segment of its own. -/
theorem inert_singleton {b : UInt8} (hb : b ∉ BaseNix32.characters) : Inert modulus [b] := by
  intro p a d
  exact sweep_barrier (size_eq modulus) modulus.length_pos (modulus.not_mem hb) p a d

/-- Framing that is too short to hold the modulus between its first and its
    last byte. -/
theorem inert_of_ends {b e : UInt8} {mid : Bytes} (hb : b ∉ BaseNix32.characters)
    (he : e ∉ BaseNix32.characters) (hmid : mid.length < hashLen) :
    Inert modulus (b :: (mid ++ [e])) := by
  intro p a d
  have hcut := sweep_barrier (size_eq modulus) modulus.length_pos (modulus.not_mem hb) p a
    (mid ++ e :: d)
  have hend := sweep_barrier (size_eq modulus) modulus.length_pos (modulus.not_mem he)
    (p + a.length + 1) mid d
  have hkeep := sweep_of_short (size_eq modulus) (p + a.length + 1) (s := mid)
    (by rw [modulus.length_eq]; exact hmid)
  rw [hend, hkeep] at hcut
  have hpos : p + a.length + (b :: (mid ++ [e])).length = p + a.length + 1 + mid.length + 1 := by
    simp only [List.length_cons, List.length_append, List.length_nil]
    omega
  have hbytes : a ++ (b :: (mid ++ [e]) ++ d) = a ++ b :: (mid ++ e :: d) := by simp
  unfold zeroOut
  rw [hbytes, hpos, hcut]
  simp

/-- Zero bytes in front of an inert segment, however many. -/
theorem Inert.zeros_append {c : Bytes} (h : Inert modulus c) (k : Nat) :
    Inert modulus (List.replicate k 0 ++ c) := by
  induction k with
  | zero => exact h
  | succ k ih => exact (inert_singleton (by decide)).append ih

/-- A payload between two inert segments. -/
theorem segment_payload {c c' : Bytes} (h : Inert modulus c) (h' : Inert modulus c') (w : Bytes) :
    Segment modulus (c ++ (w ++ c')) (c ++ ((zeroOut modulus 0 w).1 ++ c'))
      ((zeroOut modulus 0 w).2.map (· + c.length)) := by
  intro p a d
  have hpay : zeroOut modulus (p + a.length + c.length) w
      = ((zeroOut modulus 0 w).1,
         (zeroOut modulus 0 w).2.map (· + (p + a.length + c.length))) := by
    have := sweep_shift (size_eq modulus) 0 (p + a.length + c.length) w
    rwa [Nat.zero_add] at this
  have hpos : p + a.length + (c ++ (w ++ c')).length
      = p + a.length + c.length + w.length + c'.length := by
    simp only [List.length_append]
    omega
  have hbytes : a ++ (c ++ (w ++ c') ++ d) = a ++ (c ++ (w ++ (c' ++ d))) := by
    simp only [List.append_assoc]
  rw [hbytes, h p a (w ++ (c' ++ d)), h' (p + a.length + c.length) w d, hpay,
    map_add_map_add, hpos]
  simp only [List.map_nil, List.nil_append, List.append_assoc]

/-! ## The framing of archives -/

/-- Bytes that are framing wherever they stand: not longer than the modulus,
    and neither the first nor the last is in the alphabet. -/
def isFraming (c : Bytes) : Bool :=
  decide (2 ≤ c.length ∧ c.length ≤ hashLen) &&
    c.head?.all (fun b => decide (b ∉ BaseNix32.characters)) &&
    c.getLast?.all (fun e => decide (e ∉ BaseNix32.characters))

theorem inert_of_isFraming {c : Bytes} (h : isFraming c = true) : Inert modulus c := by
  simp only [isFraming, Bool.and_eq_true, decide_eq_true_eq] at h
  obtain ⟨⟨⟨htwo, hlen⟩, hhead⟩, hlast⟩ := h
  cases c with
  | nil => exact absurd htwo (by decide)
  | cons b rest =>
      have hne : rest ≠ [] := by
        rintro rfl
        exact absurd htwo (by simp)
      obtain ⟨mid, e, rfl⟩ : ∃ mid e, rest = mid ++ [e] :=
        ⟨rest.dropLast, rest.getLast hne, (List.dropLast_append_getLast hne).symm⟩
      have hb : b ∉ BaseNix32.characters := by simpa using hhead
      have he : e ∉ BaseNix32.characters := by
        rw [← List.cons_append, List.getLast?_concat] at hlast
        simpa using hlast
      refine inert_of_ends hb he ?_
      simp only [List.length_cons, List.length_append, List.length_nil] at hlen
      omega

/-- The top byte of a length below 2 ^ 56 is zero. -/
theorem writeNum_top {n : Nat} (hn : n < 2 ^ 56) :
    ∃ low : Bytes, low.length = 7 ∧ writeNum n = low ++ [0] := by
  have htop : n >>> 56 = 0 := by
    rw [Nat.shiftRight_eq_div_pow]
    exact Nat.div_eq_of_lt hn
  refine ⟨[n &&& 0xff, (n >>> 8) &&& 0xff, (n >>> 16) &&& 0xff, (n >>> 24) &&& 0xff,
    (n >>> 32) &&& 0xff, (n >>> 40) &&& 0xff, (n >>> 48) &&& 0xff].map UInt8.ofNat, rfl, ?_⟩
  rw [writeNum, htop]
  rfl

/-- A keyword and the length of the payload that follows it. -/
theorem inert_tag_num {t : String} {b : UInt8} {mid : Bytes} (ht : tag t = b :: mid)
    (hb : b ∉ BaseNix32.characters) (hmid : mid.length + 7 < hashLen) {n : Nat}
    (hn : n < 2 ^ 56) : Inert modulus (tag t ++ writeNum n) := by
  obtain ⟨low, hlow, hnum⟩ := writeNum_top hn
  have hbytes : tag t ++ writeNum n = b :: (mid ++ low ++ [0]) := by
    rw [ht, hnum, List.cons_append, List.append_assoc]
  rw [hbytes]
  refine inert_of_ends hb (by decide) ?_
  rw [List.length_append]
  omega

/-- A string between two keywords. -/
theorem segment_writeString {t t' : String} {s : Bytes}
    (ht : Inert modulus (tag t ++ writeNum s.length)) (ht' : Inert modulus (tag t')) :
    Segment modulus (tag t ++ (writeString s ++ tag t'))
      (tag t ++ (writeString (zeroOut modulus 0 s).1 ++ tag t'))
      ((zeroOut modulus 0 s).2.map (· + (tag t ++ writeNum s.length).length)) := by
  have hlen : (zeroOut modulus 0 s).1.length = s.length := sweep_length (size_eq modulus) 0 s
  have hpad : Inert modulus (writePadding s.length ++ tag t') := by
    rw [writePadding_eq_replicate]
    exact ht'.zeros_append _
  have h := segment_payload ht hpad s
  unfold writeString
  rw [hlen]
  simpa only [List.append_assoc] using h

end Segments

/-! ## Zeroed trees -/

mutual

/-- The node with every name, target and file body zeroed on its own. -/
def zeroNode (modulus : HashPart) : NarNode → NarNode
  | .regular e contents pad => .regular e (zeroOut modulus 0 contents).1 pad
  | .directory entries => .directory (zeroEntries modulus entries)
  | .symlink target => .symlink (zeroOut modulus 0 target).1

/-- `zeroNode` for the entries of a directory. -/
def zeroEntries (modulus : HashPart) : List (Bytes × NarNode) → List (Bytes × NarNode)
  | [] => []
  | (name, x) :: rest =>
      ((zeroOut modulus 0 name).1, zeroNode modulus x) :: zeroEntries modulus rest

end

theorem zeroOut_length (modulus : HashPart) (p : Nat) (s : Bytes) :
    (zeroOut modulus p s).1.length = s.length := sweep_length (size_eq modulus) p s

mutual

/-- Zeroing keeps every length, and so the framing. -/
theorem framed_zeroNode (modulus : HashPart) : ∀ {x : NarNode}, x.Framed →
    (zeroNode modulus x).Framed
  | .regular e c p, h => by
      simp only [zeroNode, Framed, zeroOut_length]
      exact h
  | .directory es, h => framedEntries_zeroEntries modulus h
  | .symlink t, h => by
      simp only [zeroNode, Framed, zeroOut_length]
      exact h

theorem framedEntries_zeroEntries (modulus : HashPart) : ∀ {es : List (Bytes × NarNode)},
    FramedEntries es → FramedEntries (zeroEntries modulus es)
  | [], _ => trivial
  | (name, x) :: rest, h => by
      refine ⟨?_, framed_zeroNode modulus h.2.1, framedEntries_zeroEntries modulus h.2.2⟩
      rw [zeroOut_length]
      exact h.1

end

/-- What the file bodies must satisfy: a size below 2 ^ 56 and zero padding. -/
def BodySmall (contents pad : Bytes) : Prop :=
  contents.length < 2 ^ 56 ∧ pad = writePadding contents.length

section Encode

variable {modulus : HashPart}

/-- The bytes of a regular file; the contents start at byte 72, or at byte
    104 behind an executable marker. -/
theorem segment_regular (e : Bool) {c p : Bytes} (h : BodySmall c p) :
    Segment modulus (encode (.regular e c p)) (encode (.regular e (zeroOut modulus 0 c).1 p))
      ((zeroOut modulus 0 c).2.map (· + if e then 104 else 72)) := by
  obtain ⟨hsize, rfl⟩ := h
  have hopen : Inert modulus (tag "(" ++ (tag "type" ++ tag "regular")) :=
    (inert_of_isFraming (by decide)).append
      ((inert_of_isFraming (by decide)).append (inert_of_isFraming (by decide)))
  have hmark : Inert modulus (tag "executable" ++ tag "") :=
    (inert_of_isFraming (by decide)).append (inert_of_isFraming (by decide))
  have hnum : Inert modulus (tag "contents" ++ writeNum c.length) :=
    inert_tag_num rfl (by decide) (by decide) hsize
  have hclose : Inert modulus (writePadding c.length ++ tag ")") := by
    rw [writePadding_eq_replicate]
    exact (inert_of_isFraming (by decide)).zeros_append _
  have hbody := segment_payload hnum hclose c
  have hnumlen : (tag "contents" ++ writeNum c.length).length = 24 := by
    rw [List.length_append, writeNum_length]
    rfl
  rw [hnumlen] at hbody
  cases e with
  | false =>
      have hlen : (tag "(" ++ (tag "type" ++ tag "regular")).length = 48 := by decide
      have h := Segment.append hopen hbody
      rw [List.nil_append, map_add_map_add, hlen] at h
      simpa only [encode, zeroOut_length, List.append_assoc, Bool.false_eq_true, if_false,
        List.nil_append] using h
  | true =>
      have hlen : (tag "(" ++ (tag "type" ++ tag "regular") ++ (tag "executable" ++ tag "")).length
          = 80 := by decide
      have h := Segment.append (hopen.append hmark) hbody
      rw [List.nil_append, map_add_map_add, hlen] at h
      simpa only [encode, zeroOut_length, List.append_assoc, if_true] using h

mutual

/-- The zeroed bytes of a node are the bytes of the zeroed node. -/
theorem segment_encode : ∀ {x : NarNode} {levels : Nat}, x.Legal levels → x.AllFiles BodySmall →
    ∃ hits, Segment modulus x.encode (zeroNode modulus x).encode hits
  | .regular e c p, _, _, hfile => ⟨_, segment_regular e hfile⟩
  | .symlink t, _, h, _ => by
      have hopen : Inert modulus (tag "(" ++ (tag "type" ++ tag "symlink")) :=
        (inert_of_isFraming (by decide)).append
          ((inert_of_isFraming (by decide)).append (inert_of_isFraming (by decide)))
      have hnum : Inert modulus (tag "target" ++ writeNum t.length) :=
        inert_tag_num rfl (by decide) (by decide) (lt_of_le_of_lt h.2.2.2 (by decide))
      have hclose : Inert modulus (tag ")") := inert_of_isFraming (by decide)
      have htarget := segment_writeString hnum hclose
      have h := Segment.append hopen htarget
      exact ⟨_, by simpa only [encode, zeroNode, List.append_assoc] using h⟩
  | .directory es, _, h, hfiles => by
      have hopen : Inert modulus (tag "(" ++ (tag "type" ++ tag "directory")) :=
        (inert_of_isFraming (by decide)).append
          ((inert_of_isFraming (by decide)).append (inert_of_isFraming (by decide)))
      obtain ⟨hits, hes⟩ := segment_encodeEntries h.2 hfiles
      have h := Segment.append hopen hes
      exact ⟨_, by simpa only [encode, zeroNode, List.append_assoc] using h⟩

theorem segment_encodeEntries : ∀ {es : List (Bytes × NarNode)} {levels : Nat} {prev : Bytes},
    LegalEntries levels prev es → AllFilesEntries BodySmall es →
    ∃ hits, Segment modulus (encodeEntries es ++ tag ")")
      (encodeEntries (zeroEntries modulus es) ++ tag ")") hits
  | [], _, _, _, _ => ⟨[], inert_of_isFraming (by decide)⟩
  | (name, x) :: rest, _, _, h, hfiles => by
      obtain ⟨hlen, -, -, hx, hrest⟩ := h
      have hopen : Inert modulus (tag "entry" ++ tag "(") :=
        (inert_of_isFraming (by decide)).append (inert_of_isFraming (by decide))
      have hnum : Inert modulus (tag "name" ++ writeNum name.length) :=
        inert_tag_num rfl (by decide) (by decide) (lt_of_le_of_lt hlen (by decide))
      have hntag : Inert modulus (tag "node") := inert_of_isFraming (by decide)
      have hname := segment_writeString hnum hntag
      obtain ⟨hitsx, hnode⟩ := segment_encode hx hfiles.1
      have hclose : Inert modulus (tag ")") := inert_of_isFraming (by decide)
      obtain ⟨hitsr, htail⟩ := segment_encodeEntries hrest hfiles.2
      have h := ((Segment.append hopen hname).append hnode).append (Segment.append hclose htail)
      exact ⟨_, by simpa only [encodeEntries, zeroEntries, List.append_assoc] using h⟩

end

end Encode

/-! ## Recovering the tree -/

/-- Every regular file of the tree is shorter than `n` bytes. -/
def FilesShorterThan (n : Nat) (f : File) : Prop :=
  f.toNar.AllFiles fun contents _ => contents.length < n

mutual

theorem allFiles_and {P Q : Bytes → Bytes → Prop} : ∀ {x : NarNode}, x.AllFiles P →
    x.AllFiles Q → x.AllFiles fun c p => P c p ∧ Q c p
  | .regular _ _ _, hp, hq => ⟨hp, hq⟩
  | .directory _, hp, hq => allFilesEntries_and hp hq
  | .symlink _, _, _ => trivial

theorem allFilesEntries_and {P Q : Bytes → Bytes → Prop} : ∀ {es : List (Bytes × NarNode)},
    AllFilesEntries P es → AllFilesEntries Q es → AllFilesEntries (fun c p => P c p ∧ Q c p) es
  | [], _, _ => trivial
  | (_, _) :: _, hp, hq => ⟨allFiles_and hp.1 hq.1, allFilesEntries_and hp.2 hq.2⟩

end

/-- The archive of a tree. -/
def nar (f : File) : Bytes := writeString narVersionMagic1 ++ f.toNar.encode

theorem zeroOut_nar (modulus : HashPart) {f : File} (hlim : f.WithinLimits narMaxDepth)
    (hfiles : FilesShorterThan (2 ^ 56) f) :
    (zeroOut modulus 0 (nar f)).1
      = writeString narVersionMagic1 ++ (zeroNode modulus f.toNar).encode := by
  have hmagic : Inert modulus (writeString narVersionMagic1) := inert_of_isFraming (by decide)
  have hfiles : f.toNar.AllFiles BodySmall := allFiles_and hfiles (padsZero_toNar f)
  obtain ⟨hits, hnode⟩ :
      ∃ hits, Segment modulus f.toNar.encode (zeroNode modulus f.toNar).encode hits :=
    segment_encode (legal_toNar.mpr hlim) hfiles
  have h := (Segment.append hmagic hnode) 0 [] []
  simp only [List.nil_append, List.append_nil, zeroOut_nil] at h
  rw [nar, h]

/-- What reaches the hash: the zeroed archive and then the positions. -/
theorem hashModuloInput_eq (modulus : HashPart) {chunks : List Bytes} :
    hashModuloInput modulus.chars chunks =
      (zeroOut modulus 0 chunks.flatten).1 ++
        (((zeroOut modulus 0 chunks.flatten).2.map (· % 2 ^ 64)).toFinset.sort (· ≤ ·)).flatMap
          positionText := by
  have hne : modulus.chars ≠ List.replicate modulus.chars.length 0 := by
    intro h
    have hmem : (0 : UInt8) ∈ modulus.chars := by
      rw [h]
      exact List.mem_replicate.mpr ⟨Nat.ne_of_gt modulus.length_pos, rfl⟩
    exact modulus.not_mem (by decide) hmem
  obtain ⟨hout, hfound, -⟩ :=
    RewritingSink.run_flush (size_eq modulus) modulus.length_pos hne chunks
  unfold hashModuloInput modulusSink
  simp only [hout, hfound]
  rfl

theorem positions_inj {P Q : Finset Nat}
    (h : (P.sort (· ≤ ·)).flatMap positionText = (Q.sort (· ≤ ·)).flatMap positionText) :
    P = Q := by
  have hbar (n : Nat) : (0x7c : UInt8) ∉ decimal n := by
    intro hmem
    obtain ⟨c, hc, hbyte⟩ := List.mem_map.mp hmem
    have hdigit := toNat_of_isDigit (isDigit_of_mem_toString hc)
    have hval := congrArg UInt8.toNat hbyte
    rw [UInt8.toNat_ofNat', Nat.mod_eq_of_lt (by omega)] at hval
    simp at hval
    omega
  have hsort := flatMap_mark_inj decimal_injective hbar h
  rw [← Finset.sort_toFinset P (· ≤ ·), hsort, Finset.sort_toFinset]

/-- As long as no position reaches 2 ^ 64, the set of positions is the list of
    positions. -/
theorem hits_eq_of_positions (modulus : HashPart) {s s' : Bytes} (hs : s.length < 2 ^ 64)
    (hs' : s'.length < 2 ^ 64)
    (h : ((zeroOut modulus 0 s).2.map (· % 2 ^ 64)).toFinset
      = ((zeroOut modulus 0 s').2.map (· % 2 ^ 64)).toFinset) :
    (zeroOut modulus 0 s).2 = (zeroOut modulus 0 s').2 := by
  have hmod (u : Bytes) (hu : u.length < 2 ^ 64) :
      (zeroOut modulus 0 u).2.map (· % 2 ^ 64) = (zeroOut modulus 0 u).2 := by
    conv_rhs => rw [← List.map_id (zeroOut modulus 0 u).2]
    apply List.map_congr_left
    intro q hq
    have hbound := ((sweep_hits (size_eq modulus) 0 u).2 q hq).2
    exact Nat.mod_eq_of_lt (by omega)
  rw [hmod s hs, hmod s' hs'] at h
  have hasc (u : Bytes) : (zeroOut modulus 0 u).2.Pairwise (· < ·) :=
    (sweep_hits (size_eq modulus) 0 u).1
  refine (hasc s).eq_of_mem_iff (hasc s') ?_
  intro q
  rw [← List.mem_toFinset, h, List.mem_toFinset]

/-- What a `HashModuloSink` feeds to its hash differs for different trees,
    however their archives are cut into writes, as long as the archives have
    less than 2 ^ 64 bytes. -/
theorem hashModuloInput_ne (modulus : HashPart) {f f' : File} (hne : f ≠ f')
    (hlim : f.WithinLimits narMaxDepth) (hlim' : f'.WithinLimits narMaxDepth)
    (hfiles : FilesShorterThan (2 ^ 56) f) (hfiles' : FilesShorterThan (2 ^ 56) f')
    {chunks chunks' : List Bytes}
    (hdump : dumpPath plain defaultPathFilter f = .ok chunks.flatten)
    (hdump' : dumpPath plain defaultPathFilter f' = .ok chunks'.flatten)
    (hsize : chunks.flatten.length < 2 ^ 64) (hsize' : chunks'.flatten.length < 2 ^ 64) :
    hashModuloInput modulus.chars chunks ≠ hashModuloInput modulus.chars chunks' := by
  intro h
  apply hne
  rw [dumpPath_eq_ok hlim, Except.ok.injEq] at hdump
  rw [dumpPath_eq_ok hlim', Except.ok.injEq] at hdump'
  have hnar : chunks.flatten = nar f := hdump.symm
  have hnar' : chunks'.flatten = nar f' := hdump'.symm
  rw [hashModuloInput_eq, hashModuloInput_eq, hnar, hnar', zeroOut_nar modulus hlim hfiles,
    zeroOut_nar modulus hlim' hfiles', List.append_assoc, List.append_assoc,
    List.append_cancel_left_eq] at h
  -- the zeroed archive says itself where it ends
  obtain ⟨hnode, hpositions⟩ := encode_append_inj
    (framed_zeroNode modulus (legal_toNar.mpr hlim).framed)
    (framed_zeroNode modulus (legal_toNar.mpr hlim').framed) h
  have hhits := hits_eq_of_positions modulus (hnar ▸ hsize) (hnar' ▸ hsize')
    (positions_inj hpositions)
  have hout : (zeroOut modulus 0 (nar f)).1 = (zeroOut modulus 0 (nar f')).1 := by
    rw [zeroOut_nar modulus hlim hfiles, zeroOut_nar modulus hlim' hfiles', hnode]
  have hsame : nar f = nar f' := sweep_inj (size_eq modulus) (Prod.ext hout hhits)
  rw [nar, nar, List.append_cancel_left_eq] at hsame
  have htoNar : f.toNar = f'.toNar := by
    have henc : f.toNar.encode ++ [] = f'.toNar.encode ++ [] := by rw [hsame]
    exact (encode_append_inj (legal_toNar.mpr hlim).framed (legal_toNar.mpr hlim').framed henc).1
  rw [← toFile_toNar f, htoNar, toFile_toNar]

/-- The modulus of 32 zeros. -/
def sampleModulus : HashPart where
  chars := List.replicate 32 0x30
  length_eq := by decide
  nix32 := by
    intro c hc
    rw [List.eq_of_mem_replicate hc]
    decide

/-- Two files that hold the modulus and eight zeros more, where it occurs at nine
    places that overlap; in the first of them it may have been zeroed already. -/
def sampleFiles (zeroed : Bool) : File :=
  .directory
    [(ascii "a", .regular false
      (List.replicate 32 (if zeroed then 0 else 0x30) ++ List.replicate 8 0x30)),
     (ascii "b", .regular true (List.replicate 40 0x30))]

/-- An archive in three writes, cut inside the contents of its first file. -/
def pieces (s : Bytes) : List Bytes := [s.take 240, (s.drop 240).take 10, s.drop 250]

theorem flatten_pieces (s : Bytes) : (pieces s).flatten = s := by
  have hrest : (s.drop 240).take 10 ++ s.drop 250 = s.drop 240 := by
    have hsplit := List.take_append_drop 10 (s.drop 240)
    rw [List.drop_drop] at hsplit
    exact hsplit
  rw [pieces, List.flatten_cons, List.flatten_cons, List.flatten_singleton, hrest,
    List.take_append_drop]

theorem sampleFiles_withinLimits (zeroed : Bool) :
    (sampleFiles zeroed).WithinLimits narMaxDepth := by
  simp only [sampleFiles, File.WithinLimits, File.EntriesWithinLimits, SortedMap.Ascending,
    List.pairwise_cons]
  revert zeroed
  decide

/-- The two archives are the same once the modulus is zeroed, but not fed to the
    hash alike. -/
theorem hashModuloInput_ne_sample :
    (zeroOut sampleModulus 0 (nar (sampleFiles false))).1 =
        (zeroOut sampleModulus 0 (nar (sampleFiles true))).1 ∧
      hashModuloInput sampleModulus.chars (pieces (nar (sampleFiles false)))
        ≠ hashModuloInput sampleModulus.chars (pieces (nar (sampleFiles true))) := by
  have hne : sampleFiles false ≠ sampleFiles true := by
    simp [sampleFiles]
  have hfiles (zeroed : Bool) : FilesShorterThan (2 ^ 56) (sampleFiles zeroed) := by
    simp only [sampleFiles, FilesShorterThan, File.toNar, File.toNarEntries, AllFiles,
      AllFilesEntries]
    revert zeroed
    decide
  have hdump (zeroed : Bool) : dumpPath plain defaultPathFilter (sampleFiles zeroed) =
      .ok (pieces (nar (sampleFiles zeroed))).flatten := by
    rw [dumpPath_eq_ok (sampleFiles_withinLimits zeroed), flatten_pieces]
    rfl
  have hsize (zeroed : Bool) : (pieces (nar (sampleFiles zeroed))).flatten.length < 2 ^ 64 := by
    have hle : (nar (sampleFiles zeroed)).length ≤ 1000 := by
      revert zeroed
      decide +kernel
    rw [flatten_pieces]
    omega
  exact ⟨by decide +kernel, hashModuloInput_ne sampleModulus hne (sampleFiles_withinLimits _)
    (sampleFiles_withinLimits _) (hfiles _) (hfiles _) (hdump _) (hdump _) (hsize _) (hsize _)⟩

/-! ## Positions that wrap

A directory of 257 files of 2 ^ 56 - 184 bytes, whose entries take 2 ^ 56
bytes each.  If one file starts with the modulus and everything else is zero,
it makes no difference whether that is the first file or the last. -/

namespace WrappedArchive

/-- A directory of regular files with these names and contents. -/
def directoryOf (files : List (Bytes × Bytes)) : File :=
  .directory (files.map fun e => (e.1, .regular false e.2))

/-- Where the modulus is found in the files of a directory, counted from the
    first entry, if the names have two bytes and the files `size`. -/
def fileHits (size : Nat) : List (Bytes × Bytes) → List Nat
  | [] => []
  | e :: rest =>
      (zeroOut sampleModulus 0 e.2).2.map (· + 152) ++ (fileHits size rest).map (· + (184 + size))

/-- The entries of the directory, as a segment. -/
theorem segment_files {size : Nat} (hmod : size % 8 = 0) (hlt : size < 2 ^ 56)
    {files : List (Bytes × Bytes)} (h : ∀ e ∈ files, e.1.length = 2 ∧ e.2.length = size) :
    Segment sampleModulus
      (encodeEntries (File.toNarEntries (files.map fun e => (e.1, .regular false e.2))) ++ tag ")")
      (encodeEntries (zeroEntries sampleModulus
        (File.toNarEntries (files.map fun e => (e.1, .regular false e.2)))) ++ tag ")")
      (fileHits size files) := by
  induction files with
  | nil => exact inert_of_isFraming (by decide)
  | cons e rest ih =>
      obtain ⟨name, contents⟩ := e
      obtain ⟨hname, hsize⟩ := h (name, contents) List.mem_cons_self
      have hrest := ih fun e he => h e (List.mem_cons_of_mem _ he)
      have hopen : Inert sampleModulus (tag "entry" ++ tag "(") :=
        (inert_of_isFraming (by decide)).append (inert_of_isFraming (by decide))
      have hnum : Inert sampleModulus (tag "name" ++ writeNum name.length) :=
        inert_tag_num rfl (by decide) (by decide) (by rw [hname]; decide)
      have hntag : Inert sampleModulus (tag "node") := inert_of_isFraming (by decide)
      have hsmall : BodySmall contents (writePadding contents.length) :=
        ⟨by rw [hsize]; exact hlt, rfl⟩
      have hfile := @segment_regular sampleModulus false _ _ hsmall
      have hclose : Inert sampleModulus (tag ")") := inert_of_isFraming (by decide)
      have hshort : zeroOut sampleModulus 0 name = (name, []) :=
        sweep_of_short (size_eq sampleModulus) 0 (by rw [hname]; decide)
      have hstr := segment_writeString hnum hntag
      rw [hshort] at hstr
      have h := ((Segment.append hopen hstr).append hfile).append (Segment.append hclose hrest)
      have hhead : (tag "entry" ++ tag "(" ++ (tag "name" ++ (writeString name ++ tag "node"))).length
          = 80 := by
        rw [writeString, writePadding, hname]
        simp only [List.length_append, writeNum_length, hname]
        decide
      have hnode : (encode (.regular false contents (writePadding contents.length))).length
          = 88 + size := by
        have htags : (tag "(").length = 16 ∧ (tag "type").length = 16 ∧ (tag "regular").length = 16 ∧
            (tag "contents").length = 16 ∧ (tag ")").length = 16 := by decide
        have hpad : writePadding size = [] := by
          rw [writePadding, hmod]
          rfl
        rw [hsize, hpad]
        simp only [encode, List.length_append, writeNum_length, hsize, htags, List.length_nil,
          Bool.false_eq_true, if_false]
        omega
      have hlen : (tag "entry" ++ tag "(" ++ (tag "name" ++ (writeString name ++ tag "node")) ++
          encode (.regular false contents (writePadding contents.length))).length
          = 168 + size := by
        rw [List.length_append, hhead, hnode]
        omega
      have hend : (tag ")").length = 16 := by decide
      have hentry : 168 + size + 16 = 184 + size := by omega
      rw [hlen, hhead, hend] at h
      rw [fileHits]
      simpa only [List.map_cons, File.toNarEntries, File.toNar, zeroEntries, zeroNode, hshort,
        encodeEntries, List.append_assoc, map_add_map_add, List.map_nil, List.nil_append,
        Bool.false_eq_true, if_false, hentry, Nat.reduceAdd] using h

/-! ## Zeros -/

theorem zeroOut_zeros (p n : Nat) :
    zeroOut sampleModulus p (List.replicate n 0) = (List.replicate n 0, []) := by
  induction n generalizing p with
  | zero => rfl
  | succ n ih =>
      have h := (inert_singleton (b := 0) (by decide) : Inert sampleModulus [0]) p []
        (List.replicate n 0)
      rw [ih] at h
      exact h

/-- A file that starts with the modulus, and is zero otherwise. -/
theorem zeroOut_hot (n : Nat) :
    zeroOut sampleModulus 0 (sampleModulus.chars ++ List.replicate n 0)
      = (List.replicate (32 + n) 0, [0]) := by
  have hne : sampleModulus.chars ≠ List.replicate sampleModulus.chars.length 0 := by decide
  have hpatch : patch sampleModulus.chars (List.replicate sampleModulus.chars.length 0)
      (sampleModulus.chars ++ List.replicate n 0) = List.replicate (32 + n) 0 := by
    rw [patch, if_pos (List.prefix_append _ _), List.drop_left, List.replicate_append_replicate]
    rfl
  have h := sweep_of_hit (size_eq sampleModulus) hne 0
    (List.prefix_append sampleModulus.chars (List.replicate n 0))
  rw [hpatch] at h
  have hz := zeroOut_zeros 0 (32 + n)
  unfold zeroOut at hz ⊢
  rw [h, hz]

/-- Files without the modulus only move what comes behind them. -/
theorem fileHits_append {size : Nat} {cold : List (Bytes × Bytes)}
    (h : ∀ e ∈ cold, (zeroOut sampleModulus 0 e.2).2 = []) (rest : List (Bytes × Bytes)) :
    fileHits size (cold ++ rest)
      = (fileHits size rest).map (· + cold.length * (184 + size)) := by
  induction cold with
  | nil => simp
  | cons e cold ih =>
      have he := h e List.mem_cons_self
      have hrec := ih fun e he => h e (List.mem_cons_of_mem _ he)
      rw [List.cons_append, fileHits, he, hrec, List.map_nil, List.nil_append, map_add_map_add,
        List.length_cons, Nat.add_mul, Nat.one_mul, Nat.add_comm (184 + size)]

/-! ## The directories -/

section Directories

variable {size : Nat} {files : List (Bytes × Bytes)}

theorem zeroOut_directoryOf (hmod : size % 8 = 0) (hlt : size < 2 ^ 56)
    (h : ∀ e ∈ files, e.1.length = 2 ∧ e.2.length = size) :
    zeroOut sampleModulus 0 (nar (directoryOf files))
      = (writeString narVersionMagic1 ++
          (zeroNode sampleModulus (directoryOf files).toNar).encode,
         (fileHits size files).map (· + 80)) := by
  have hhead : Inert sampleModulus
      (writeString narVersionMagic1 ++ (tag "(" ++ (tag "type" ++ tag "directory"))) :=
    (inert_of_isFraming (by decide)).append ((inert_of_isFraming (by decide)).append
      ((inert_of_isFraming (by decide)).append (inert_of_isFraming (by decide))))
  have hlen : (writeString narVersionMagic1 ++ (tag "(" ++ (tag "type" ++ tag "directory"))).length
      = 80 := by decide +kernel
  have hseg := (Segment.append hhead (segment_files hmod hlt h)) 0 [] []
  rw [hlen] at hseg
  simp only [List.nil_append, List.append_nil, zeroOut_nil, List.length_nil, Nat.add_zero,
    List.map_id', List.append_assoc] at hseg
  simpa only [nar, directoryOf, File.toNar, zeroNode, encode, List.append_assoc] using hseg

/-- Zeroing the files of a directory. -/
theorem zeroNode_directoryOf (h : ∀ e ∈ files, e.1.length = 2 ∧ e.2.length = size) :
    zeroNode sampleModulus (directoryOf files).toNar
      = .directory (files.map fun e =>
          (e.1, .regular false (zeroOut sampleModulus 0 e.2).1 (writePadding size))) := by
  unfold directoryOf
  rw [File.toNar, zeroNode, NarNode.directory.injEq]
  induction files with
  | nil => rfl
  | cons e rest ih =>
      obtain ⟨hname, hsize⟩ := h e List.mem_cons_self
      have hshort : zeroOut sampleModulus 0 e.1 = (e.1, []) :=
        sweep_of_short (size_eq sampleModulus) 0 (by rw [hname]; decide)
      rw [List.map_cons, List.map_cons, File.toNarEntries, zeroEntries,
        ih fun e he => h e (List.mem_cons_of_mem _ he), File.toNar, zeroNode, hshort, hsize]

theorem withinLimits_directoryOf (hasc : (files.map (·.1)).Pairwise (· < ·))
    (hname : ∀ e ∈ files, e.1.length ≤ narMaxName ∧ ¬ invalidName e.1)
    (hsize : ∀ e ∈ files, e.2.length < 2 ^ 64) :
    (directoryOf files).WithinLimits narMaxDepth := by
  refine ⟨by decide, ?_, ?_⟩
  · rw [ascending_iff_names, List.map_map]
    exact hasc
  · clear hasc
    induction files with
    | nil => trivial
    | cons e rest ih =>
        refine ⟨(hname e List.mem_cons_self).1, (hname e List.mem_cons_self).2,
          ⟨by decide, hsize e List.mem_cons_self⟩, ?_⟩
        exact ih (fun e he => hname e (List.mem_cons_of_mem _ he))
          (fun e he => hsize e (List.mem_cons_of_mem _ he))

theorem filesShorterThan_directoryOf (n : Nat) (h : ∀ e ∈ files, e.2.length < n) :
    FilesShorterThan n (directoryOf files) := by
  show AllFilesEntries _ (File.toNarEntries _)
  induction files with
  | nil => trivial
  | cons e rest ih =>
      exact ⟨h e List.mem_cons_self, ih fun e he => h e (List.mem_cons_of_mem _ he)⟩

end Directories

/-- Two-letter names in ascending order. -/
def fileName (i : Nat) : Bytes := [UInt8.ofNat (0x61 + i / 16), UInt8.ofNat (0x61 + i % 16)]

/-- A file of zeros. -/
def coldFile (size i : Nat) : Bytes × Bytes := (fileName i, List.replicate size 0)

/-- A file that starts with the modulus. -/
def hotFile (size i : Nat) : Bytes × Bytes :=
  (fileName i, sampleModulus.chars ++ List.replicate (size - 32) 0)

/-- The modulus in the first of 257 files. -/
def early (size : Nat) : List (Bytes × Bytes) :=
  hotFile size 0 :: (List.range' 1 256).map (coldFile size)

/-- The modulus in the last of 257 files. -/
def late (size : Nat) : List (Bytes × Bytes) :=
  (List.range' 0 256).map (coldFile size) ++ [hotFile size 256]

/-- The names of both directories. -/
theorem names_eq (size : Nat) :
    (early size).map (·.1) = (List.range' 0 257).map fileName ∧
      (late size).map (·.1) = (List.range' 0 257).map fileName := by
  have hcold (l : List Nat) : (l.map (coldFile size)).map (·.1) = l.map fileName := by
    rw [List.map_map]
    rfl
  refine ⟨?_, ?_⟩
  · rw [early, List.map_cons, hcold]
    rfl
  · have hend : List.range' 0 257 = List.range' 0 256 ++ [256] := List.range'_concat
    rw [late, List.map_append, hcold, hend, List.map_append]
    rfl

theorem names_ascending : ((List.range' 0 257).map fileName).Pairwise (· < ·) := by
  have htrans : IsTrans Bytes (· < ·) := ⟨fun _ _ _ => List.lt_trans⟩
  rw [← List.isChain_iff_pairwise]
  decide +kernel

theorem names_ok : ∀ n ∈ (List.range' 0 257).map fileName,
    n.length = 2 ∧ n.length ≤ narMaxName ∧ ¬ invalidName n := by
  decide +kernel

theorem sizes_eq {size : Nat} (h32 : 32 ≤ size) :
    (∀ e ∈ early size, e.2.length = size) ∧ ∀ e ∈ late size, e.2.length = size := by
  have hcold (l : List Nat) : ∀ e ∈ l.map (coldFile size), e.2.length = size := by
    intro e he
    obtain ⟨i, -, rfl⟩ := List.mem_map.mp he
    exact List.length_replicate
  have hhot (i : Nat) : (hotFile size i).2.length = size := by
    show (sampleModulus.chars ++ List.replicate (size - 32) 0).length = size
    rw [List.length_append, List.length_replicate, sampleModulus.length_eq, hashLen]
    omega
  refine ⟨?_, ?_⟩
  · exact List.forall_mem_cons.mpr ⟨hhot 0, hcold _⟩
  · intro e he
    rcases List.mem_append.mp he with he | he
    · exact hcold _ e he
    · rw [List.mem_singleton.mp he]
      exact hhot 256

/-- Files with the 257 names and one size. -/
structure WellSized (size : Nat) (files : List (Bytes × Bytes)) : Prop where
  names : files.map (·.1) = (List.range' 0 257).map fileName
  sizes : ∀ e ∈ files, e.2.length = size

theorem wellSized_early {size : Nat} (h32 : 32 ≤ size) : WellSized size (early size) :=
  ⟨(names_eq size).1, (sizes_eq h32).1⟩

theorem wellSized_late {size : Nat} (h32 : 32 ≤ size) : WellSized size (late size) :=
  ⟨(names_eq size).2, (sizes_eq h32).2⟩

namespace WellSized

variable {size : Nat} {files : List (Bytes × Bytes)} (h : WellSized size files)

include h

theorem name_ok {e : Bytes × Bytes} (he : e ∈ files) :
    e.1.length = 2 ∧ e.1.length ≤ narMaxName ∧ ¬ invalidName e.1 := by
  apply names_ok
  rw [← h.names]
  exact List.mem_map_of_mem he

theorem lengths : ∀ e ∈ files, e.1.length = 2 ∧ e.2.length = size :=
  fun e he => ⟨(h.name_ok he).1, h.sizes e he⟩

theorem withinLimits (hlt : size < 2 ^ 56) : (directoryOf files).WithinLimits narMaxDepth := by
  refine withinLimits_directoryOf ?_ (fun e he => (h.name_ok he).2) ?_
  · rw [h.names]
    exact names_ascending
  · intro e he
    rw [h.sizes e he]
    omega

theorem filesShorter (hlt : size < 2 ^ 56) : FilesShorterThan (2 ^ 56) (directoryOf files) := by
  refine filesShorterThan_directoryOf _ ?_
  intro e he
  rw [h.sizes e he]
  exact hlt

end WellSized

/-- Once zeroed, the directories are the same. -/
theorem zeroed_eq {size : Nat} (h32 : 32 ≤ size) (pad : Bytes) :
    ((early size).map fun e =>
        (e.1, NarNode.regular false (zeroOut sampleModulus 0 e.2).1 pad))
      = (late size).map fun e =>
        (e.1, NarNode.regular false (zeroOut sampleModulus 0 e.2).1 pad) := by
  obtain ⟨g, hg⟩ : ∃ g : Bytes × Bytes → Bytes × NarNode, g = fun e =>
    (e.1, NarNode.regular false (zeroOut sampleModulus 0 e.2).1 pad) := ⟨_, rfl⟩
  obtain ⟨blank, hblank⟩ : ∃ blank : Nat → Bytes × NarNode, blank = fun i =>
    (fileName i, NarNode.regular false (List.replicate size 0) pad) := ⟨_, rfl⟩
  have hcold (l : List Nat) : (l.map (coldFile size)).map g = l.map blank := by
    rw [List.map_map]
    apply List.map_congr_left
    intro i _
    simp only [Function.comp_apply, hg, hblank, coldFile, zeroOut_zeros]
  have hhot (i : Nat) : g (hotFile size i) = blank i := by
    simp only [hg, hblank, hotFile, zeroOut_hot, show 32 + (size - 32) = size by omega]
  have hsplit : List.range' 0 257 = 0 :: List.range' 1 256 := rfl
  have hend : List.range' 0 257 = List.range' 0 256 ++ [256] := List.range'_concat
  rw [← hg]
  calc (early size).map g
      = (List.range' 0 257).map blank := by
        rw [early, List.map_cons, hcold, hhot, hsplit, List.map_cons]
    _ = (late size).map g := by
        rw [late, List.map_append, hcold, List.map_singleton, hhot, hend, List.map_append,
          List.map_singleton]

theorem early_ne_late (size : Nat) :
    directoryOf (early size) ≠ directoryOf (late size) := by
  intro h
  have hfirst : sampleModulus.chars ++ List.replicate (size - 32) 0 = List.replicate size 0 := by
    have hsplit : List.range' 0 256 = 0 :: List.range' 1 255 := rfl
    simp only [directoryOf, early, late, hsplit, List.map_cons, List.cons_append,
      File.directory.injEq, List.cons.injEq, Prod.mk.injEq, File.regular.injEq] at h
    exact h.1.2.2
  have hmem : (0x30 : UInt8) ∈ List.replicate size (0 : UInt8) := by
    rw [← hfirst]
    exact List.mem_append_left _ (by decide)
  exact absurd (List.eq_of_mem_replicate hmem) (by decide)

/-- The positions in the two directories are 256 entries apart. -/
theorem fileHits_eq (size : Nat) :
    fileHits size (early size) = [152] ∧
      fileHits size (late size) = [152 + 256 * (184 + size)] := by
  have hcold (l : List Nat) : ∀ e ∈ l.map (coldFile size), (zeroOut sampleModulus 0 e.2).2 = [] := by
    intro e he
    obtain ⟨i, -, rfl⟩ := List.mem_map.mp he
    exact congrArg Prod.snd (zeroOut_zeros 0 size)
  have hhot (i : Nat) : (zeroOut sampleModulus 0 (hotFile size i).2).2 = [0] :=
    congrArg Prod.snd (zeroOut_hot (size - 32))
  refine ⟨?_, ?_⟩
  · have hrest : fileHits size ((List.range' 1 256).map (coldFile size) ++ []) = [] :=
      fileHits_append (hcold _) []
    rw [List.append_nil] at hrest
    rw [early, fileHits, hhot, hrest]
    rfl
  · rw [late, fileHits_append (hcold _), fileHits, hhot]
    simp [fileHits]

/-- With entries of 2 ^ 56 bytes the two positions are the same 64-bit
    number, and the two archives are fed to the hash alike. -/
theorem collision {size : Nat} (hmod : size % 8 = 0) (hsize : 184 + size = 2 ^ 56) :
    hashModuloInput sampleModulus.chars [nar (directoryOf (early size))]
      = hashModuloInput sampleModulus.chars [nar (directoryOf (late size))] := by
  have h32 : 32 ≤ size := by omega
  have hlt : size < 2 ^ 56 := by omega
  have hearly := (wellSized_early h32).lengths
  have hlate := (wellSized_late h32).lengths
  have hpos : (152 + 256 * (184 + size) + 80) % 2 ^ 64 = (152 + 80) % 2 ^ 64 := by
    rw [hsize]
    decide
  rw [hashModuloInput_eq, hashModuloInput_eq, List.flatten_singleton, List.flatten_singleton,
    zeroOut_directoryOf hmod hlt hearly, zeroOut_directoryOf hmod hlt hlate,
    zeroNode_directoryOf hearly, zeroNode_directoryOf hlate, zeroed_eq h32, (fileHits_eq size).1,
    (fileHits_eq size).2]
  simp only [List.map_cons, List.map_nil, hpos]

end WrappedArchive

/-- In archives of more than 2 ^ 64 bytes different trees are fed to the hash
    alike. -/
theorem not_hashModuloInput_ne :
    ¬ ∀ (modulus : HashPart) (f f' : File), f ≠ f' →
      f.WithinLimits narMaxDepth → f'.WithinLimits narMaxDepth →
      FilesShorterThan (2 ^ 56) f → FilesShorterThan (2 ^ 56) f' →
      ∀ chunks chunks' : List Bytes,
        dumpPath plain defaultPathFilter f = .ok chunks.flatten →
        dumpPath plain defaultPathFilter f' = .ok chunks'.flatten →
        hashModuloInput modulus.chars chunks ≠ hashModuloInput modulus.chars chunks' := by
  intro h
  obtain ⟨size, hmod, hsize⟩ : ∃ size, size % 8 = 0 ∧ 184 + size = 2 ^ 56 :=
    ⟨2 ^ 56 - 184, by decide, by decide⟩
  have h32 : 32 ≤ size := by omega
  have hlt : size < 2 ^ 56 := by omega
  have hearly := WrappedArchive.wellSized_early h32
  have hlate := WrappedArchive.wellSized_late h32
  have hdump {f : File} (hlim : f.WithinLimits narMaxDepth) :
      dumpPath plain defaultPathFilter f = .ok [nar f].flatten := by
    rw [dumpPath_eq_ok hlim, List.flatten_singleton]
    rfl
  exact h sampleModulus _ _ (WrappedArchive.early_ne_late size) (hearly.withinLimits hlt)
    (hlate.withinLimits hlt) (hearly.filesShorter hlt) (hlate.filesShorter hlt) _ _
    (hdump (hearly.withinLimits hlt)) (hdump (hlate.withinLimits hlt))
    (WrappedArchive.collision hmod hsize)

end HashModulo
end NixStore
