import TSubSpec.Lib.Lacing
import TSubSpec.Ogg.Framing

/-!
# `TSubSpec.Ogg.Pages`: what a page says

`PageInfo` is what the `ogg_page_` functions return for a page, with its body cut into the pieces
that the segment table counts. A page whose body is as long as its segment table says has such an
info (`OggPage.Consistent.shows`), and so has the page that `ogg_stream_flush_i` makes
(`shows_page`). `ogg_page_checksum_set` leaves a page whose checksum is right (`Sealed`).
-/

set_option autoImplicit false

namespace TSubSpec.Ogg

open TSubSpec.Lib Lacing

/-- A segment that is not full is the last one of its packet. A packet whose length is a multiple of
255 ends with an empty one. -/
def short (b : Bytes) : Bool := b.length < 255

/-- The segment table of a page: the size of each of its segments, in one octet. -/
def tableOf (pieces : List Bytes) : Bytes := pieces.map fun b => UInt8.ofNat b.length

/-- The size of a piece in the segment table. -/
theorem toNat_size {b : Bytes} (hb : b.length ≤ 255) : (UInt8.ofNat b.length).toNat = b.length :=
  UInt8.toNat_ofNat_of_lt' (Nat.lt_succ_of_le hb)

/-- The test for the end of a packet on the octet of a size is the one on the piece. -/
theorem size_lt {b : Bytes} (hb : b.length ≤ 255) :
    UInt8.ofNat b.length < 255 ↔ short b = true := by
  rw [UInt8.lt_iff_toNat_lt, toNat_size hb, short, decide_eq_true_iff]
  rfl

/-- What a page says: the flags and numbers of its header, and the pieces its body is cut into. -/
structure PageInfo where
  version : Nat
  continued : Bool
  bos : Bool
  eos : Bool
  granulepos : BitVec 64
  serialno : BitVec 32
  pageno : Nat
  pieces : List Bytes

/-- The header and the body of the page say so. Every read of the header that the receiver makes
then has the value of the field. -/
structure Shows (og : OggPage) (info : PageInfo) : Prop where
  version : og.version = some info.version
  continued : og.continued = some info.continued
  bos : og.bos = some info.bos
  eos : og.eos = some info.eos
  granulepos : og.granulepos = some info.granulepos
  serialno : og.serialno = some info.serialno
  pageno : og.pageno = some info.pageno
  table : og.table = some (tableOf info.pieces)
  body : og.body = info.pieces.flatten
  fits : ∀ b ∈ info.pieces, b.length ≤ 255

/-- The header has the number of the pieces. -/
theorem Shows.segments {og : OggPage} {info : PageInfo} (h : Shows og info) :
    ∃ n, og.header[26]? = some n ∧ n.toNat = info.pieces.length ∧ info.pieces.length ≤ 255 := by
  have htable := h.table
  unfold OggPage.table at htable
  cases hn : og.header[26]? with
  | none =>
    rw [hn] at htable
    cases htable
  | some n =>
    have htaken : (if og.header.length < 27 + n.toNat then none
        else some ((og.header.drop 27).take n.toNat)) = some (tableOf info.pieces) := by
      rw [hn] at htable
      exact htable
    by_cases hshort : og.header.length < 27 + n.toNat
    · rw [if_pos hshort] at htaken
      cases htaken
    · rw [if_neg hshort] at htaken
      have hlength := congrArg List.length (Option.some.inj htaken)
      have hmax := n.toNat_lt
      rw [List.length_take, List.length_drop, tableOf, List.length_map] at hlength
      exact ⟨n, rfl, by omega, by omega⟩

/-- The body of the page has the octets that its segment table counts. `ogg_stream_pagein` does not
test this, and would read outside of a shorter body. -/
def OggPage.Consistent (og : OggPage) : Prop :=
  ∃ n, og.header[26]? = some n ∧ 27 + n.toNat ≤ og.header.length ∧
    og.body.length = (((og.header.drop 27).take n.toNat).map UInt8.toNat).sum

instance (og : OggPage) : Decidable og.Consistent :=
  decidable_of_iff ((og.header[26]?.any fun n => decide (27 + n.toNat ≤ og.header.length ∧
    og.body.length = (((og.header.drop 27).take n.toNat).map UInt8.toNat).sum)) = true) (by
      unfold OggPage.Consistent
      cases og.header[26]? <;> simp)

/-- An octet of a header that is long enough. -/
theorem octet_of_lt {header : Bytes} {i : Nat} (hi : i < header.length) :
    header[i]? = some header[i] := List.getElem?_eq_getElem hi

/-- Such a page says something. -/
theorem OggPage.Consistent.shows {og : OggPage} (h : og.Consistent) : ∃ info, Shows og info := by
  obtain ⟨n, hn, hheader, hbody⟩ := h
  have hlength : ∀ i ≤ 26, i < og.header.length := fun i hi => by omega
  -- Every field is inside of the header, so each of the reads has a value.
  have hword : ∀ i ≤ 23, ∃ x, og.word i = some x := by
    intro i hi
    unfold OggPage.word
    rw [octet_of_lt (hlength i (by omega)), octet_of_lt (hlength (i + 1) (by omega)),
      octet_of_lt (hlength (i + 2) (by omega)), octet_of_lt (hlength (i + 3) (by omega))]
    exact ⟨_, rfl⟩
  obtain ⟨table, htable⟩ : ∃ table, table = (og.header.drop 27).take n.toNat := ⟨_, rfl⟩
  rw [← htable] at hbody
  obtain ⟨serialno, hserialno⟩ := hword 14 (by omega)
  obtain ⟨pageno, hpageno⟩ := hword 18 (by omega)
  have hgranule : ∃ x, og.granulepos = some x := by
    unfold OggPage.granulepos
    rw [if_neg (by omega)]
    exact ⟨_, rfl⟩
  obtain ⟨granulepos, hgranulepos⟩ := hgranule
  -- The body is cut by its table, which counts all of its octets.
  have hsizes : (cut (table.map UInt8.toNat) og.body).map List.length = table.map UInt8.toNat :=
    map_length_cut (Nat.le_of_eq hbody.symm)
  refine ⟨⟨og.header[4].toNat, og.header[5] &&& 0x01 ≠ 0, og.header[5] &&& 0x02 ≠ 0,
    og.header[5] &&& 0x04 ≠ 0, granulepos, serialno, pageno.toNat,
    cut (table.map UInt8.toNat) og.body⟩, ?_, ?_, ?_, ?_, hgranulepos, hserialno, ?_, ?_, ?_, ?_⟩
  · unfold OggPage.version
    rw [octet_of_lt (hlength 4 (by omega))]
    rfl
  · unfold OggPage.continued
    rw [octet_of_lt (hlength 5 (by omega))]
    rfl
  · unfold OggPage.bos
    rw [octet_of_lt (hlength 5 (by omega))]
    rfl
  · unfold OggPage.eos
    rw [octet_of_lt (hlength 5 (by omega))]
    rfl
  · unfold OggPage.pageno
    rw [hpageno]
    rfl
  · -- The sizes of the pieces are the octets of the table again.
    have htableOf : tableOf (cut (table.map UInt8.toNat) og.body) = table := by
      have hmap := congrArg (List.map UInt8.ofNat) hsizes
      rw [List.map_map, List.map_map] at hmap
      refine hmap.trans ?_
      conv => rhs; rw [← List.map_id table]
      exact List.map_congr_left fun x _ => UInt8.ofNat_toNat
    unfold OggPage.table
    rw [hn, htableOf, htable]
    exact if_neg (by omega)
  · rw [flatten_cut, ← hbody, List.take_length]
  · intro b hb
    have hmem : b.length ∈ table.map UInt8.toNat := by
      rw [← hsizes]
      exact List.mem_map_of_mem hb
    obtain ⟨x, -, hx⟩ := List.mem_map.mp hmem
    rw [← hx]
    exact Nat.le_of_lt_succ x.toNat_lt

/-! ### Numbers in the header -/

open OggStreamState (octets)

/-- The number whose octets these are, the lowest first. It is what the reads of the header
compute. -/
def joined (w : Nat) (bytes : Bytes) : BitVec w :=
  bytes.foldr (fun x acc => (acc <<< 8) ||| x.toBitVec.setWidth w) 0

/-- The bits of a number that was written in octets and is read back from them. -/
theorem getLsbD_joined_octets {w v : Nat} (n : Nat) (x : BitVec v) (hw : 8 * n ≤ w) (hv : 8 * n ≤ v)
    (i : Nat) : (joined w (octets n x)).getLsbD i = (decide (i < 8 * n) && x.getLsbD i) := by
  induction n generalizing x i with
  | zero => simp [joined, octets]
  | succ n ih =>
    have hsplit : joined w (octets (n + 1) x) =
        (joined w (octets n (x.sshiftRight 8)) <<< 8) ||| (x.setWidth 8).setWidth w := rfl
    rw [hsplit, BitVec.getLsbD_or, BitVec.getLsbD_shiftLeft,
      ih (x.sshiftRight 8) (by omega) (by omega), BitVec.getLsbD_setWidth, BitVec.getLsbD_setWidth,
      BitVec.getLsbD_sshiftRight]
    -- The bit is in the first octet, in one of the others, or behind them.
    by_cases hlow : i < 8
    · simp [hlow, show i < w by omega, show i < 8 * (n + 1) by omega]
    · by_cases hhigh : i < 8 * (n + 1)
      · have hback : 8 + (i - 8) = i := by omega
        simp [hlow, hhigh, hback, show i < w by omega, show i - 8 < 8 * n by omega,
          show i < v by omega, show i - 8 < v by omega]
      · simp [hlow, hhigh, show ¬i - 8 < 8 * n by omega]

/-- A granule position is read back from its eight octets. -/
theorem joined_octets_eight (x : BitVec 64) : joined 64 (octets 8 x) = x := by
  refine BitVec.eq_of_getLsbD_eq fun i hi => ?_
  rw [getLsbD_joined_octets 8 x (Nat.le_refl 64) (Nat.le_refl 64), decide_eq_true hi, Bool.true_and]

/-- Of a number that is written in four octets the low 32 bits are read back, so a page number comes
back modulo `2 ^ 32`. -/
theorem joined_octets_four (x : BitVec 64) : joined 32 (octets 4 x) = x.setWidth 32 := by
  refine BitVec.eq_of_getLsbD_eq fun i hi => ?_
  rw [getLsbD_joined_octets 4 x (Nat.le_refl 32) (by omega), BitVec.getLsbD_setWidth]

/-- The order in which octets are joined does not matter. -/
theorem or_reverse (a b c d : BitVec 32) : a ||| b ||| c ||| d = d ||| c ||| b ||| a := by
  ac_rfl

/-- The four octets of a number, joined in the other way of the source. -/
theorem word_eq {header body : Bytes} {i : Nat} {a b c d : UInt8} {more : Bytes}
    (h : header.drop i = a :: b :: c :: d :: more) :
    (OggPage.mk header body).word i = some (joined 32 [a, b, c, d]) := by
  have hget : ∀ k, header[i + k]? = (a :: b :: c :: d :: more)[k]? := by
    intro k
    rw [← h, List.getElem?_drop]
  have hword : word32 a ||| (word32 b <<< 8) ||| (word32 c <<< 16) ||| (word32 d <<< 24) =
      joined 32 [a, b, c, d] := by
    show _ = ((((0#32 <<< 8 ||| word32 d) <<< 8 ||| word32 c) <<< 8 ||| word32 b) <<< 8 |||
      word32 a)
    rw [BitVec.zero_shiftLeft, BitVec.zero_or, BitVec.shiftLeft_or_distrib,
      BitVec.shiftLeft_or_distrib, BitVec.shiftLeft_or_distrib, ← BitVec.shiftLeft_add,
      ← BitVec.shiftLeft_add, ← BitVec.shiftLeft_add]
    exact or_reverse _ _ _ _
  unfold OggPage.word
  rw [show header[i]? = some a from hget 0, show header[i + 1]? = some b from hget 1,
    show header[i + 2]? = some c from hget 2, show header[i + 3]? = some d from hget 3]
  exact congrArg some hword

/-! ### Headers -/

/-- A header up to the checksum. -/
def headerStart (flags : UInt8) (granulePos : BitVec 64) (serialno : BitVec 32) (pageno : Int) :
    Bytes :=
  ascii "OggS" ++ [0x00, flags] ++ octets 8 granulePos ++ octets 4 (serialno.signExtend 64) ++
    octets 4 (BitVec.ofInt 64 pageno)

variable {flags : UInt8} {granulePos : BitVec 64} {serialno : BitVec 32} {pageno : Int}
  {start after body checksum : Bytes}

/-- The octets that `ogg_page_checksum_set` stores. -/
def checksumOf (start after body : Bytes) : Bytes :=
  let crcReg := osUpdateCrc (osUpdateCrc 0 (start ++ [0, 0, 0, 0] ++ after)) body
  [⟨(crcReg &&& 0xff).setWidth 8⟩, ⟨((crcReg >>> 8) &&& 0xff).setWidth 8⟩,
    ⟨((crcReg >>> 16) &&& 0xff).setWidth 8⟩, ⟨((crcReg >>> 24) &&& 0xff).setWidth 8⟩]

/-- Setting the checksum replaces the four octets behind the first 22, and nothing else. -/
theorem checksumSet_eq (hstart : start.length = 22) (hchecksum : checksum.length = 4) :
    (OggPage.mk (start ++ checksum ++ after) body).checksumSet =
      some ⟨start ++ checksumOf start after body ++ after, body⟩ := by
  have htake : (start ++ checksum ++ after).take 22 = start := by
    rw [List.append_assoc, ← hstart, List.take_left]
  have hdrop : (start ++ checksum ++ after).drop 26 = after := by
    have hlength : (start ++ checksum).length = 26 := by
      rw [List.length_append, hstart, hchecksum]
    rw [← hlength, List.drop_left]
  unfold OggPage.checksumSet
  simp only [htake, hdrop]
  rw [if_neg (by rw [List.length_append, List.length_append]; omega)]
  rfl

/-- The page begins with the capture pattern, has the length that its header says and the checksum
that `ogg_page_checksum_set` computes. -/
structure Sealed (og : OggPage) : Prop where
  capture : og.header.take 4 = ascii "OggS"
  exact : ∃ n, og.header[26]? = some n ∧ og.header.length = 27 + n.toNat ∧
    og.body.length = (((og.header.drop 27).take n.toNat).map UInt8.toNat).sum
  checksum : og.checksumSet = some og

/-- The size of the body of a page that carries its checksum is the one that its table says. -/
theorem Sealed.consistent {og : OggPage} (h : Sealed og) : og.Consistent := by
  obtain ⟨n, hn, hheader, hbody⟩ := h.exact
  exact ⟨n, hn, Nat.le_of_eq hheader.symm, hbody⟩

/-- The header of a page says what it was made of. -/
theorem shows_page {pieces : List Bytes} (hpieces : ∀ b ∈ pieces, b.length ≤ 255)
    (hlength : pieces.length ≤ 255) (checksum : Bytes) (hchecksum : checksum.length = 4) :
    Shows ⟨headerStart flags granulePos serialno pageno ++ checksum ++
        UInt8.ofNat pieces.length :: tableOf pieces, pieces.flatten⟩
      ⟨0, flags &&& 0x01 ≠ 0, flags &&& 0x02 ≠ 0, flags &&& 0x04 ≠ 0, granulePos, serialno,
        ((BitVec.ofInt 64 pageno).setWidth 32).toNat, pieces⟩ := by
  have hn : (UInt8.ofNat pieces.length).toNat = pieces.length :=
    UInt8.toNat_ofNat_of_lt' (Nat.lt_succ_of_le hlength)
  obtain ⟨c₀, c₁, c₂, c₃, rfl⟩ : ∃ c₀ c₁ c₂ c₃, checksum = [c₀, c₁, c₂, c₃] := by
    match checksum, hchecksum with
    | [c₀, c₁, c₂, c₃], _ => exact ⟨c₀, c₁, c₂, c₃, rfl⟩
  have hheader : (headerStart flags granulePos serialno pageno ++ [c₀, c₁, c₂, c₃] ++
      UInt8.ofNat pieces.length :: tableOf pieces).length = 27 + pieces.length := by
    rw [List.length_append, List.length_cons, tableOf, List.length_map]
    show 26 + _ = _
    omega
  -- The flags stand in one octet; the numbers are put together again from their octets.
  refine ⟨rfl, rfl, rfl, rfl, ?_, ?_, ?_, ?_, rfl, hpieces⟩
  · unfold OggPage.granulepos
    rw [if_neg (by rw [hheader]; omega)]
    exact congrArg some (joined_octets_eight granulePos)
  · refine (word_eq rfl).trans (congrArg some ?_)
    refine (joined_octets_four _).trans (BitVec.eq_of_getLsbD_eq fun i hi => ?_)
    rw [BitVec.getLsbD_setWidth, BitVec.getLsbD_signExtend, if_pos hi]
    simp [hi, show i < 64 by omega]
  · refine (congrArg (Option.map BitVec.toNat) (word_eq rfl)).trans (congrArg some ?_)
    exact congrArg BitVec.toNat (joined_octets_four _)
  · show (if _ < 27 + (UInt8.ofNat pieces.length).toNat then none
      else some ((tableOf pieces).take (UInt8.ofNat pieces.length).toNat)) = _
    rw [hn, if_neg (by rw [hheader]; omega), List.take_of_length_le]
    exact Nat.le_of_eq (List.length_map _)

/-- The sizes in the segment table are those of the pieces. -/
theorem map_toNat_tableOf {pieces : List Bytes} (hpieces : ∀ b ∈ pieces, b.length ≤ 255) :
    (tableOf pieces).map UInt8.toNat = pieces.map List.length := by
  rw [tableOf, List.map_map]
  exact List.map_congr_left fun b hb => toNat_size (hpieces b hb)

/-- The page with its checksum. -/
theorem sealed_page {pieces : List Bytes} (hpieces : ∀ b ∈ pieces, b.length ≤ 255)
    (hle : pieces.length ≤ 255) :
    ∃ og, (OggPage.mk (headerStart flags granulePos serialno pageno ++ [0, 0, 0, 0] ++
        UInt8.ofNat pieces.length :: tableOf pieces) pieces.flatten).checksumSet = some og ∧
      Sealed og ∧
      Shows og ⟨0, flags &&& 0x01 ≠ 0, flags &&& 0x02 ≠ 0, flags &&& 0x04 ≠ 0, granulePos, serialno,
        ((BitVec.ofInt 64 pageno).setWidth 32).toNat, pieces⟩ := by
  have hn : (UInt8.ofNat pieces.length).toNat = pieces.length :=
    UInt8.toNat_ofNat_of_lt' (Nat.lt_succ_of_le hle)
  have hstart : (headerStart flags granulePos serialno pageno).length = 22 := rfl
  -- The four octets that `ogg_page_checksum_set` stores, computed with zeros in their place.
  obtain ⟨checksum, hchecksum⟩ : ∃ checksum, checksum = checksumOf
      (headerStart flags granulePos serialno pageno) (UInt8.ofNat pieces.length :: tableOf pieces)
      pieces.flatten := ⟨_, rfl⟩
  have hfour : checksum.length = 4 := by
    rw [hchecksum]
    rfl
  -- Computing it a second time gives the same octets, since they are cleared before.
  have hset : (OggPage.mk (headerStart flags granulePos serialno pageno ++ checksum ++
      UInt8.ofNat pieces.length :: tableOf pieces) pieces.flatten).checksumSet =
        some ⟨headerStart flags granulePos serialno pageno ++ checksum ++
          UInt8.ofNat pieces.length :: tableOf pieces, pieces.flatten⟩ := by
    rw [checksumSet_eq hstart hfour, ← hchecksum]
  have hfront : (headerStart flags granulePos serialno pageno ++ checksum).length = 26 := by
    rw [List.length_append, hstart, hfour]
  have htable : (tableOf pieces).length = pieces.length := List.length_map _
  refine ⟨_, checksumSet_eq hstart rfl, ?_, ?_⟩ <;> rw [← hchecksum]
  · refine ⟨rfl, ⟨UInt8.ofNat pieces.length, ?_, ?_, ?_⟩, hset⟩
    · show (headerStart flags granulePos serialno pageno ++ checksum ++ _)[26]? = _
      rw [← hfront, List.getElem?_append_right (Nat.le_refl _), Nat.sub_self]
      rfl
    · show (headerStart flags granulePos serialno pageno ++ checksum ++ _).length = _
      rw [List.length_append, hfront, hn, List.length_cons, htable]
      omega
    · show pieces.flatten.length =
        ((((headerStart flags granulePos serialno pageno ++ checksum ++ _).drop 27).take _).map
          _).sum
      rw [show 27 = 26 + 1 from rfl, ← List.drop_drop, ← hfront, List.drop_left, List.drop_one,
        List.tail_cons, hn, ← htable, List.take_length, map_toNat_tableOf hpieces,
        List.length_flatten]
  · exact shows_page hpieces hle checksum hfour

end TSubSpec.Ogg
