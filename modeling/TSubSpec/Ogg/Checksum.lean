import TSubSpec.Ogg.CrcTable

/-!
# `TSubSpec.Ogg.Checksum`: the checksum of a page

The source updates the checksum by eight octets at a time, each with a table of its own.
`osUpdateCrc_crc` says that this is the remainder of the octets one after the other.
-/

set_option autoImplicit false

namespace TSubSpec.Ogg

open TSubSpec.Lib Crc

/-- An octet as an `ogg_uint32_t`. -/
def word32 (x : UInt8) : BitVec 32 := x.toBitVec.setWidth 32

/-- `_os_update_crc` -/
def osUpdateCrc (crc : BitVec 32) : Bytes → BitVec 32
  | b₀ :: b₁ :: b₂ :: b₃ :: b₄ :: b₅ :: b₆ :: b₇ :: buffer =>
    let crc := crc ^^^
      ((word32 b₀ <<< 24) ||| (word32 b₁ <<< 16) ||| (word32 b₂ <<< 8) ||| word32 b₃)
    osUpdateCrc
      (crcLookup 7 (crc >>> 24).toNat ^^^ crcLookup 6 ((crc >>> 16) &&& 0xff#32).toNat ^^^
        crcLookup 5 ((crc >>> 8) &&& 0xff#32).toNat ^^^ crcLookup 4 (crc &&& 0xff#32).toNat ^^^
        crcLookup 3 b₄.toNat ^^^ crcLookup 2 b₅.toNat ^^^
        crcLookup 1 b₆.toNat ^^^ crcLookup 0 b₇.toNat) buffer
  | buffer => buffer.foldl (fun crc x =>
      (crc <<< 8) ^^^ crcLookup 0 (((crc >>> 24) &&& 0xff#32) ^^^ word32 x).toNat) crc

/-! ### Words of four octets -/

/-- The `k`-th octet of a word, the highest one first. -/
def octetAt (k : Nat) (c : BitVec 32) : UInt8 := ⟨(c >>> (24 - 8 * k)).setWidth 8⟩

/-- The octets of the remainder, as the code takes them out for the tables. -/
theorem toNat_octetAt (k : Nat) (c : BitVec 32) :
    (octetAt k c).toNat = ((c >>> (24 - 8 * k)) &&& 0xff#32).toNat := by
  show ((c >>> (24 - 8 * k)).setWidth 8).toNat = _
  rw [BitVec.toNat_setWidth, BitVec.toNat_and]
  exact (Nat.and_two_pow_sub_one_eq_mod _ 8).symm

/-- The highest octet needs no mask. -/
theorem toNat_octetAt_zero (c : BitVec 32) : (octetAt 0 c).toNat = (c >>> 24).toNat := by
  show ((c >>> 24).setWidth 8).toNat = _
  rw [BitVec.toNat_setWidth, BitVec.toNat_ushiftRight, Nat.shiftRight_eq_div_pow]
  exact Nat.mod_eq_of_lt (by have := c.isLt; omega)

/-- An octet at the place `k` has the bits from `24 - 8 * k` on. -/
theorem getLsbD_place_range {k i : Nat} (x : UInt8) (hk : k ≤ 3) (hi : i < 32) :
    (place 32 k x).getLsbD i = (decide (24 - 8 * k ≤ i ∧ i < 32 - 8 * k) &&
      x.toBitVec.getLsbD (i - (24 - 8 * k))) := by
  rw [getLsbD_place _ _ hi, show 32 - 8 * (k + 1) = 24 - 8 * k by omega]
  by_cases hlt : i < 32 - 8 * k
  · simp [hlt]
  · rw [BitVec.getLsbD_of_ge x.toBitVec _ (by omega), Bool.and_false, Bool.and_false]

/-- An octet of the remainder is at its place in the remainder. -/
theorem getLsbD_place_octetAt {k i : Nat} (c : BitVec 32) (hk : k ≤ 3) (hi : i < 32) :
    (place 32 k (octetAt k c)).getLsbD i =
      (decide (24 - 8 * k ≤ i ∧ i < 32 - 8 * k) && c.getLsbD i) := by
  rw [getLsbD_place_range _ hk hi]
  by_cases h : 24 - 8 * k ≤ i ∧ i < 32 - 8 * k
  · show (_ && ((c >>> (24 - 8 * k)).setWidth 8).getLsbD _) = _
    rw [BitVec.getLsbD_setWidth, BitVec.getLsbD_ushiftRight,
      decide_eq_true (show i - (24 - 8 * k) < 8 by omega),
      show 24 - 8 * k + (i - (24 - 8 * k)) = i by omega, Bool.true_and]
  · rw [decide_eq_false h, Bool.false_and, Bool.false_and]

/-- A bit of a word is in one of four octets. -/
theorem octet_cases {i : Nat} (hi : i < 32) :
    24 ≤ i ∨ 16 ≤ i ∧ i < 24 ∨ 8 ≤ i ∧ i < 16 ∨ i < 8 := by
  omega

/-- A word is its four octets. -/
theorem eq_octets (c : BitVec 32) :
    c = place 32 0 (octetAt 0 c) ^^^ place 32 1 (octetAt 1 c) ^^^ place 32 2 (octetAt 2 c) ^^^
      place 32 3 (octetAt 3 c) := by
  refine BitVec.eq_of_getLsbD_eq fun i hi => ?_
  simp only [BitVec.getLsbD_xor]
  rw [getLsbD_place_octetAt c (Nat.zero_le 3) hi, getLsbD_place_octetAt c (by omega) hi,
    getLsbD_place_octetAt c (by omega) hi, getLsbD_place_octetAt c (Nat.le_refl 3) hi]
  rcases octet_cases hi with h | ⟨h, h'⟩ | ⟨h, h'⟩ | h
  · simp [h, hi, show ¬i < 8 by omega, show ¬i < 16 by omega, show ¬i < 24 by omega]
  · simp [h, h', show ¬i < 8 by omega, show ¬i < 16 by omega, show ¬24 ≤ i by omega]
  · simp [h, h', show ¬i < 8 by omega, show ¬16 ≤ i by omega, show ¬24 ≤ i by omega]
  · simp [h, show ¬8 ≤ i by omega, show ¬16 ≤ i by omega, show ¬24 ≤ i by omega]

/-- Placing octets respects exclusive or. -/
theorem place_xor (k : Nat) (x y : UInt8) :
    place 32 k (x ^^^ y) = place 32 k x ^^^ place 32 k y := by
  rw [place, place, place, ← shiftLeft_xor]
  congr 1

/-- The places behind the first one are moved by eight bits. -/
theorem shifts_low (c : BitVec 32) :
    shifts polynomial 8 (c ^^^ place 32 0 (octetAt 0 c)) = c <<< 8 := by
  rw [shifts_eq_shiftLeft]
  · rw [shiftLeft_xor]
    have hzero : place 32 0 (octetAt 0 c) <<< 8 = 0#32 := by
      rw [place, ← BitVec.shiftLeft_add]
      exact BitVec.shiftLeft_eq_zero (Nat.le_refl 32)
    rw [hzero, BitVec.xor_zero]
  · intro i hi hle
    rw [BitVec.getLsbD_xor, getLsbD_place_octetAt c (Nat.zero_le 3) hi]
    simp [hi, show 24 ≤ i by omega]

/-- One octet by the first table. -/
theorem feed_eq (c : BitVec 32) (x : UInt8) :
    feed polynomial c x =
      (c <<< 8) ^^^ crcLookup 0 (((c >>> 24) &&& 0xff#32) ^^^ word32 x).toNat := by
  have hindex : (((c >>> 24) &&& 0xff#32) ^^^ word32 x).toNat = (octetAt 0 c ^^^ x).toNat := by
    rw [BitVec.toNat_xor, UInt8.toNat_xor, ← toNat_octetAt 0 c]
    congr 1
  have hsplit : c ^^^ place 32 0 x =
      (c ^^^ place 32 0 (octetAt 0 c)) ^^^ place 32 0 (octetAt 0 c ^^^ x) := by
    rw [place_xor, BitVec.xor_assoc, ← BitVec.xor_assoc (place 32 0 _), BitVec.xor_self,
      BitVec.zero_xor]
  rw [feed, hsplit, shifts_xor, shifts_low, hindex, crcLookup_eq (by omega)]

/-- A word of four octets by their tables, with `m` zero octets behind it. -/
theorem shifts_word_eq {m : Nat} (hm : m < 5) (x₀ x₁ x₂ x₃ : UInt8) :
    shifts polynomial (8 * (m + 4))
        (place 32 0 x₀ ^^^ place 32 1 x₁ ^^^ place 32 2 x₂ ^^^ place 32 3 x₃) =
      crcLookup (m + 3) x₀.toNat ^^^ crcLookup (m + 2) x₁.toNat ^^^ crcLookup (m + 1) x₂.toNat ^^^
        crcLookup m x₃.toNat := by
  have hplace : ∀ k ≤ 3, ∀ x, shifts polynomial (8 * (m + 4)) (place 32 k x) =
      crcLookup (m + 3 - k) x.toNat := by
    intro k hk x
    rw [show 8 * (m + 4) = 8 * (m + 3 - k + 1) + 8 * k by omega, shifts_add,
      shifts_place_zero (by omega), ← crcLookup_eq (by omega)]
  rw [shifts_xor, shifts_xor, shifts_xor, hplace 0 (by omega), hplace 1 (by omega),
    hplace 2 (by omega), hplace 3 (by omega)]
  rfl

/-- The four octets that are added to the remainder, one place each. -/
theorem word_four (x₀ x₁ x₂ x₃ : UInt8) :
    word 32 0 [x₀, x₁, x₂, x₃] =
      place 32 0 x₀ ^^^ place 32 1 x₁ ^^^ place 32 2 x₂ ^^^ place 32 3 x₃ := by
  show place 32 0 x₀ ^^^ (place 32 1 x₁ ^^^ (place 32 2 x₂ ^^^ (place 32 3 x₃ ^^^ 0#32))) = _
  rw [BitVec.xor_zero, BitVec.xor_assoc, BitVec.xor_assoc]

/-- The octets that are joined by shifts are a word. -/
theorem joined_eq (b₀ b₁ b₂ b₃ : UInt8) :
    (word32 b₀ <<< 24) ||| (word32 b₁ <<< 16) ||| (word32 b₂ <<< 8) ||| word32 b₃ =
      word 32 0 [b₀, b₁, b₂, b₃] := by
  have hlast : word32 b₃ = place 32 3 b₃ := (BitVec.shiftLeft_zero _).symm
  rw [hlast, word_four]
  show place 32 0 b₀ ||| place 32 1 b₁ ||| place 32 2 b₂ ||| place 32 3 b₃ = _
  refine BitVec.eq_of_getLsbD_eq fun i hi => ?_
  simp only [BitVec.getLsbD_or, BitVec.getLsbD_xor]
  rw [getLsbD_place_range b₀ (Nat.zero_le 3) hi, getLsbD_place_range b₁ (by omega) hi,
    getLsbD_place_range b₂ (by omega) hi, getLsbD_place_range b₃ (Nat.le_refl 3) hi]
  -- The octets do not overlap.
  rcases octet_cases hi with h | ⟨h, h'⟩ | ⟨h, h'⟩ | h
  · simp [h, hi, show ¬i < 8 by omega, show ¬i < 16 by omega, show ¬i < 24 by omega]
  · simp [h, h', show ¬i < 8 by omega, show ¬i < 16 by omega, show ¬24 ≤ i by omega]
  · simp [h, h', show ¬i < 8 by omega, show ¬16 ≤ i by omega, show ¬24 ≤ i by omega]
  · simp [h, show ¬8 ≤ i by omega, show ¬16 ≤ i by omega, show ¬24 ≤ i by omega]

/-- The update by eight octets. -/
theorem crc_eight (c : BitVec 32) (b₀ b₁ b₂ b₃ b₄ b₅ b₆ b₇ : UInt8) :
    Crc.crc polynomial c [b₀, b₁, b₂, b₃, b₄, b₅, b₆, b₇] =
      shifts polynomial 64 (c ^^^ word 32 0 [b₀, b₁, b₂, b₃]) ^^^
        shifts polynomial 32 (word 32 0 [b₄, b₅, b₆, b₇]) := by
  rw [show [b₀, b₁, b₂, b₃, b₄, b₅, b₆, b₇] = [b₀, b₁, b₂, b₃] ++ [b₄, b₅, b₆, b₇] from rfl,
    crc_append, crc_eq_word [b₀, b₁, b₂, b₃] (Nat.le_refl 32),
    crc_eq_word [b₄, b₅, b₆, b₇] (Nat.le_refl 32), shifts_xor]
  show shifts polynomial 32 (shifts polynomial 32 _) ^^^ _ = _
  rw [← shifts_add]
  rfl

/-- The order in which the code adds its eight table entries. -/
theorem xor_eight (a b c d e f g h : BitVec 32) :
    a ^^^ b ^^^ c ^^^ d ^^^ e ^^^ f ^^^ g ^^^ h =
      (a ^^^ b ^^^ c ^^^ d) ^^^ (e ^^^ f ^^^ g ^^^ h) := by
  ac_rfl

/-- Eight octets at a time, and what is left one after the other. -/
theorem osUpdateCrc_crc (crc : BitVec 32) (buffer : Bytes) :
    osUpdateCrc crc buffer = Crc.crc polynomial crc buffer := by
  induction crc, buffer using osUpdateCrc.induct with
  | case1 crc b₀ b₁ b₂ b₃ b₄ b₅ b₆ b₇ buffer crc' ih =>
    -- The first word with its four octets, the second one octet by octet.
    have hfirst := shifts_word_eq (m := 4) (by omega) (octetAt 0 crc') (octetAt 1 crc')
      (octetAt 2 crc') (octetAt 3 crc')
    have hlast := shifts_word_eq (m := 0) (by omega) b₄ b₅ b₆ b₇
    rw [← eq_octets, toNat_octetAt_zero, toNat_octetAt, toNat_octetAt, toNat_octetAt] at hfirst
    have hcrc : crc' = crc ^^^ word 32 0 [b₀, b₁, b₂, b₃] := congrArg (crc ^^^ ·) (joined_eq ..)
    show osUpdateCrc _ buffer =
      Crc.crc polynomial crc ([b₀, b₁, b₂, b₃, b₄, b₅, b₆, b₇] ++ buffer)
    rw [ih, crc_append, crc_eight, ← hcrc, word_four b₄]
    show _ = Crc.crc polynomial (shifts polynomial (8 * (4 + 4)) crc' ^^^
      shifts polynomial (8 * (0 + 4)) _) buffer
    rw [hfirst, hlast]
    congr 1
    exact xor_eight ..
  | case2 crc buffer h =>
    rw [osUpdateCrc]
    · refine congrFun (congrFun (congrArg _ ?_) crc) buffer
      funext c x
      exact (feed_eq c x).symm
    · exact h

end TSubSpec.Ogg
