import TSubSpec.Ogg.Syncing

/-!
# `TSubSpec.Ogg.Integrity`: what the checksum of a page protects

The checksum is the remainder of the whole page by the polynomial, with the four octets of the
checksum as zeros (`checksumSet_spec`). So a page that is damaged in one stretch of at most four
octets is not taken for a page (`pages_of_damage`), if the stretch does not reach over a border of
the checksum and does not touch the number of the segments and the segment table, by which the end
of the page is found.
-/

set_option autoImplicit false

namespace TSubSpec.Ogg

open TSubSpec.Lib Crc
open OggStreamState (octets)

/-- The octets of a page, with zeros in place of its checksum. The checksum is computed of these. -/
def zeroed (bytes : Bytes) : Bytes := bytes.take 22 ++ [0, 0, 0, 0] ++ bytes.drop 26

/-- The remainder, one bit after the other. This is what the checksum is, without the tables. -/
def remainderOf (bytes : Bytes) : BitVec 32 := crc polynomial 0 (zeroed bytes)

variable {og : OggPage}

/-- The octets of a number, taken in two ways of the source. -/
theorem octets_four (c : BitVec 32) :
    octets 4 c = [⟨(c &&& 0xff).setWidth 8⟩, ⟨((c >>> 8) &&& 0xff).setWidth 8⟩,
      ⟨((c >>> 16) &&& 0xff).setWidth 8⟩, ⟨((c >>> 24) &&& 0xff).setWidth 8⟩] := by
  -- `octets` keeps the sign while it shifts: only the bits below the copies of it may be used.
  have hoctet : ∀ (k : Nat), k ≤ 24 → ∀ x : BitVec 32, (∀ i < 8, x.getLsbD i = c.getLsbD (k + i)) →
      x.setWidth 8 = ((c >>> k) &&& 0xff).setWidth 8 := by
    intro k hk x hx
    refine BitVec.eq_of_getLsbD_eq fun i hi => ?_
    have hmask : (0xff : BitVec 32).getLsbD i = true := by
      have hall : ∀ j < 8, (0xff : BitVec 32).getLsbD j = true := by decide
      exact hall i hi
    rw [BitVec.getLsbD_setWidth, BitVec.getLsbD_setWidth, BitVec.getLsbD_and,
      BitVec.getLsbD_ushiftRight, hmask, hx i hi, Bool.and_true]
  have hshift : ∀ (m : Nat), m ≤ 24 → ∀ x : BitVec 32,
      (∀ i < 32 - m, x.getLsbD i = c.getLsbD (m + i)) → ∀ i < 32 - (m + 8),
        (x.sshiftRight 8).getLsbD i = c.getLsbD (m + 8 + i) := by
    intro m hm x hx i hi
    rw [BitVec.getLsbD_sshiftRight, decide_eq_false (by omega), if_pos (by omega), hx _ (by omega),
      Bool.not_false, Bool.true_and, Nat.add_assoc]
  have h₀ : ∀ i < 32 - 0, c.getLsbD i = c.getLsbD (0 + i) := fun i _ => by rw [Nat.zero_add]
  have h₁ := hshift 0 (by omega) c h₀
  have h₂ := hshift 8 (by omega) _ h₁
  have h₃ := hshift 16 (by omega) _ h₂
  unfold octets octets octets octets octets
  rw [hoctet 0 (by omega) c fun i hi => h₀ i (by omega),
    hoctet 8 (by omega) _ fun i hi => h₁ i (by omega),
    hoctet 16 (by omega) _ fun i hi => h₂ i (by omega),
    hoctet 24 (by omega) _ fun i hi => h₃ i (by omega)]
  rfl

/-- The first octets of a page are those of its header. -/
theorem take_bytes {n : Nat} (h : n ≤ og.header.length) : og.bytes.take n = og.header.take n :=
  List.take_append_of_le_length h

/-- Behind some octets of the header comes the rest of it, and then the body. -/
theorem drop_bytes {n : Nat} (h : n ≤ og.header.length) :
    og.bytes.drop n = og.header.drop n ++ og.body :=
  List.drop_append_of_le_length h

/-- The page with the remainder in place of its checksum. -/
theorem checksumSet_remainder (h : 26 ≤ og.header.length) :
    og.checksumSet = some
      ⟨og.header.take 22 ++ octets 4 (remainderOf og.bytes) ++ og.header.drop 26, og.body⟩ := by
  have hremainder : osUpdateCrc (osUpdateCrc 0 (og.header.take 22 ++ [0, 0, 0, 0] ++
      og.header.drop 26)) og.body = remainderOf og.bytes := by
    rw [osUpdateCrc_crc, osUpdateCrc_crc, ← crc_append, remainderOf, zeroed, take_bytes (by omega),
      drop_bytes h]
    simp only [List.append_assoc]
  unfold OggPage.checksumSet
  rw [if_neg (by omega)]
  simp only [hremainder]
  rw [octets_four]

/-- A number of 32 bits is read back from its four octets. -/
theorem joined_octets (c : BitVec 32) : joined 32 (octets 4 c) = c := by
  refine BitVec.eq_of_getLsbD_eq fun i hi => ?_
  rw [getLsbD_joined_octets 4 c (Nat.le_refl 32) (Nat.le_refl 32), decide_eq_true hi, Bool.true_and]

/-- A number is written in as many octets as are asked for. -/
theorem length_octets {w : Nat} (n : Nat) (x : BitVec w) : (octets n x).length = n := by
  induction n generalizing x with
  | zero => rfl
  | succ n ih =>
    unfold octets
    rw [List.length_cons, ih]

/-- A header is what stands before its checksum, the checksum, and what stands behind it. -/
theorem header_split (header : Bytes) :
    header = header.take 22 ++ (header.drop 22).take 4 ++ header.drop 26 := by
  rw [← List.take_add, List.take_append_drop]

/-- A page has its checksum exactly if the octets in its place are those of the remainder. -/
theorem checksumSet_iff (h : 26 ≤ og.header.length) :
    og.checksumSet = some og ↔ (og.bytes.drop 22).take 4 = octets 4 (remainderOf og.bytes) := by
  have hplace : (og.bytes.drop 22).take 4 = (og.header.drop 22).take 4 := by
    rw [drop_bytes (by omega), List.take_append_of_le_length (by rw [List.length_drop]; omega)]
  rw [checksumSet_remainder h, hplace, Option.some_inj]
  constructor
  · intro heq
    have hheader : og.header.take 22 ++ octets 4 (remainderOf og.bytes) ++ og.header.drop 26 =
        og.header := congrArg OggPage.header heq
    conv at hheader => rhs; rw [header_split og.header]
    exact (List.append_cancel_left (List.append_cancel_right hheader)).symm
  · intro heq
    rw [← heq, ← header_split]

/-! ### Damage -/

/-- The octets differ in one stretch of at most four octets, from place `i` on up to place `j`.
Outside of it they are the same, and in it they are not. -/
def Damaged (bytes bytes' : Bytes) (i j : Nat) : Prop :=
  ∃ front stretch stretch' tail, bytes = front ++ (stretch ++ tail) ∧
    bytes' = front ++ (stretch' ++ tail) ∧ front.length = i ∧ i + stretch.length = j ∧
    stretch.length = stretch'.length ∧ 8 * stretch.length ≤ 32 ∧ stretch ≠ stretch'

variable {bytes bytes' : Bytes} {i j : Nat}

/-- The front of a list with a stretch in it, cut behind the stretch. -/
theorem take_stretch {front stretch tail : Bytes} {n : Nat}
    (h : front.length + stretch.length ≤ n) :
    (front ++ (stretch ++ tail)).take n =
      front ++ (stretch ++ tail.take (n - front.length - stretch.length)) := by
  rw [List.take_append, List.take_of_length_le (by omega), List.take_append,
    List.take_of_length_le (by omega)]

/-- The rest of a list behind a place that is behind the stretch. -/
theorem drop_stretch {front stretch tail : Bytes} {n : Nat}
    (h : front.length + stretch.length ≤ n) :
    (front ++ (stretch ++ tail)).drop n = tail.drop (n - front.length - stretch.length) := by
  rw [List.drop_append, List.drop_of_length_le (by omega), List.drop_append,
    List.drop_of_length_le (by omega)]
  rfl

namespace Damaged

/-- Damage changes octets; it neither loses nor adds any. -/
theorem length_eq (h : Damaged bytes bytes' i j) : bytes'.length = bytes.length := by
  obtain ⟨front, stretch, stretch', tail, rfl, rfl, -, -, hlength, -⟩ := h
  simp only [List.length_append]
  omega

/-- Nothing is changed before the stretch, and nothing behind it. -/
theorem take_eq (h : Damaged bytes bytes' i j) {n : Nat} (hn : n ≤ i) :
    bytes'.take n = bytes.take n := by
  obtain ⟨front, stretch, stretch', tail, rfl, rfl, rfl, -⟩ := h
  rw [List.take_append_of_le_length hn, List.take_append_of_le_length hn]

/-- What is behind the damage is as before. -/
theorem drop_eq (h : Damaged bytes bytes' i j) {n : Nat} (hn : j ≤ n) :
    bytes'.drop n = bytes.drop n := by
  obtain ⟨front, stretch, stretch', tail, rfl, rfl, rfl, rfl, hlength, -⟩ := h
  rw [drop_stretch (by omega), drop_stretch (by omega), hlength]

/-- Damage changes the page. -/
theorem ne (h : Damaged bytes bytes' i j) : bytes' ≠ bytes := by
  obtain ⟨front, stretch, stretch', tail, rfl, rfl, -, -, hlength, -, hne⟩ := h
  intro heq
  have hsame := List.append_cancel_left heq
  exact hne (List.append_inj hsame.symm hlength).1

/-- The remainder changes, if the stretch is outside of the checksum. -/
theorem remainder_ne (h : Damaged bytes bytes' i j) (hout : j ≤ 22 ∨ 26 ≤ i) :
    remainderOf bytes ≠ remainderOf bytes' := by
  obtain ⟨front, stretch, stretch', tail, rfl, rfl, rfl, rfl, hlength, hfits, hne⟩ := h
  have hpoly : polynomial.getLsbD 0 = true := by decide
  unfold remainderOf zeroed
  rcases hout with hout | hout
  · rw [take_stretch hout, take_stretch (hlength ▸ hout), drop_stretch (by omega),
      drop_stretch (by omega), ← hlength]
    simp only [List.append_assoc]
    exact crc_ne_of_burst hpoly hlength hfits hne
  · rw [List.take_append_of_le_length (by omega), List.take_append_of_le_length (by omega),
      List.drop_append_of_le_length hout, List.drop_append_of_le_length hout]
    rw [← List.append_assoc _ (front.drop 26), ← List.append_assoc _ (front.drop 26)]
    exact crc_ne_of_burst hpoly hlength hfits hne

end Damaged

/-- Damage of a page that is found by its checksum. -/
theorem headOf_damaged (h : Sealed og) (hdamaged : Damaged og.bytes bytes' i j)
    (hplace : j ≤ 22 ∨ 22 ≤ i ∧ j ≤ 26 ∨ og.header.length ≤ i) (more : Bytes) :
    headOf (bytes' ++ more) = .bad := by
  obtain ⟨n, hn, hheader, hbody⟩ := h.exact
  have hlength := hdamaged.length_eq
  have hsize : og.bytes.length = og.header.length + og.body.length := List.length_append
  obtain ⟨og', hog'⟩ : ∃ og' : OggPage,
      og' = ⟨bytes'.take og.header.length, bytes'.drop og.header.length⟩ := ⟨_, rfl⟩
  have hbytes' : og'.bytes = bytes' := by
    rw [hog']
    exact List.take_append_drop _ _
  have hheader' : og'.header.length = og.header.length := by
    rw [hog', List.length_take]
    omega
  have hbody' : og'.body.length = og.body.length := by
    rw [hog', List.length_drop]
    omega
  -- The segment table is what it was.
  have htable : og'.header.drop 26 = og.header.drop 26 := by
    have htake : og.header = og.bytes.take og.header.length := List.take_left.symm
    rw [hog', List.drop_take]
    conv => rhs; rw [htake, List.drop_take]
    rcases hplace with hplace | ⟨-, hplace⟩ | hplace
    · rw [hdamaged.drop_eq (by omega)]
    · rw [hdamaged.drop_eq hplace]
    · rw [← List.drop_take, ← List.drop_take, hdamaged.take_eq hplace]
  have hn' : og'.header[26]? = some n := by
    have hget := congrArg (·[0]?) htable
    simp only [List.getElem?_drop, Nat.add_zero] at hget
    rw [hget, hn]
  have hsum : (og'.header.drop 27) = og.header.drop 27 := by
    rw [show 27 = 26 + 1 from rfl, ← List.drop_drop, htable, List.drop_drop]
  rw [← hbytes', headOf_bytes hn' (by omega) (by rw [hsum]; omega)]
  split
  · rfl
  · rw [if_neg]
    rw [checksumSet_iff (by omega), hbytes']
    intro hchecksum
    have hbefore := (@checksumSet_iff og (by omega)).mp h.checksum
    by_cases hout : j ≤ 22 ∨ 26 ≤ i
    · -- The checksum is what it was, but not the remainder.
      have hstored : (bytes'.drop 22).take 4 = (og.bytes.drop 22).take 4 := by
        rcases hout with hout | hout
        · rw [hdamaged.drop_eq hout]
        · rw [show 4 = 26 - 22 from rfl, ← List.drop_take, ← List.drop_take, hdamaged.take_eq hout]
      have hoctets := congrArg (joined 32) (hbefore.symm.trans (hstored.symm.trans hchecksum))
      rw [joined_octets, joined_octets] at hoctets
      exact hdamaged.remainder_ne hout hoctets
    · -- The remainder is what it was, but not the checksum.
      have htake : bytes'.take 22 = og.bytes.take 22 := hdamaged.take_eq (by omega)
      have hdrop : bytes'.drop 26 = og.bytes.drop 26 := hdamaged.drop_eq (by omega)
      have hremainder : remainderOf bytes' = remainderOf og.bytes := by
        unfold remainderOf zeroed
        rw [htake, hdrop]
      refine hdamaged.ne ?_
      rw [header_split bytes', header_split og.bytes, htake, hdrop, hchecksum, hbefore, hremainder]

/-- In every run, the pages before one that is damaged come out. That page does not: the search goes
on behind its first octet. A stretch of at most four octets is damaged, which the remainder always
tells, if it is on one side of the checksum and not where the page's size is. -/
theorem pages_of_damage {pages : List OggPage} (hpages : ∀ og ∈ pages, Sealed og) (h : Sealed og)
    (hdamaged : Damaged og.bytes bytes' i j)
    (hplace : j ≤ 22 ∨ 22 ≤ i ∧ j ≤ 26 ∨ og.header.length ≤ i) {s : Syncer}
    (hrun : Steps Syncer.step (fun s op => op.Allowed s.state) .init s) {more : Bytes}
    (hfed : s.fed = pages.flatMap OggPage.bytes ++ (bytes' ++ more)) {oy : OggSyncState}
    (hdone : s.state.pageout = some (0, none, oy)) :
    s.pages = pages ++ scan ((bytes' ++ more).drop 1) := by
  rw [(Syncer.invariant_of_steps hrun).complete hdone, hfed, scan_pages hpages,
    scan_bad (headOf_damaged h hdamaged hplace more)]

/-- A page without segments. -/
def emptyPage : OggPage :=
  ⟨ascii "OggS" ++ List.replicate 18 0 ++ [0x11, 0xa5, 0xa1, 0x9e, 0], []⟩

/-- A page without segments carries its checksum. -/
theorem sealed_emptyPage : Sealed emptyPage :=
  ⟨rfl, ⟨0, rfl, rfl, rfl⟩, by decide +kernel⟩

/-- A page, and the same page with a bit of the serial number changed, which leaves its size as it
is. -/
def damagedSecond : List SyncOp :=
  [.buffer (fun _ => true) 64, .wrote (emptyPage.bytes ++ emptyPage.bytes.set 14 1), .pageout,
    .pageout, .pageout]

/-- One bit of the second of two pages is damaged. The first page is returned, and from the second
one the search goes on behind its first octet. -/
theorem pages_of_damage_bit :
    ∃ s, runActions (guarded Syncer.step fun s op => decide (op.Allowed s.state)) .init
        damagedSecond = some s ∧
      s.pages = [emptyPage] ++ scan ((emptyPage.bytes.set 14 1).drop 1) := by
  have hrun : ((runActions (guarded Syncer.step fun s op => decide (op.Allowed s.state)) .init
      damagedSecond).map fun s => (s.fed, (s.state.pageout).map fun r => (r.1, r.2.1))) =
        some (emptyPage.bytes ++ emptyPage.bytes.set 14 1, some (0, none)) := by
    decide +kernel
  obtain ⟨s, hs, hboth⟩ := Option.map_eq_some_iff.mp hrun
  obtain ⟨hfed, hanswer⟩ := Prod.mk.inj hboth
  obtain ⟨⟨ret, page, oy⟩, hdone, hzero⟩ := Option.map_eq_some_iff.mp hanswer
  obtain ⟨rfl, rfl⟩ := Prod.mk.inj hzero
  have hdamaged : Damaged emptyPage.bytes (emptyPage.bytes.set 14 1) 14 15 :=
    ⟨emptyPage.bytes.take 14, [0], [1], emptyPage.bytes.drop 15, by decide, by decide, by decide,
      by decide, rfl, by decide, by decide⟩
  have hsealed : ∀ og ∈ [emptyPage], Sealed og :=
    fun og hog => List.mem_singleton.mp hog ▸ sealed_emptyPage
  have hfed' : s.fed = [emptyPage].flatMap OggPage.bytes ++ (emptyPage.bytes.set 14 1 ++ []) := hfed
  exact ⟨s, hs, pages_of_damage hsealed sealed_emptyPage hdamaged (.inl (by decide))
    (steps_of_runActions (fun _ _ h => of_decide_eq_true h) hs) hfed' hdone⟩

end TSubSpec.Ogg
