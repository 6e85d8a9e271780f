import Mathlib.Algebra.Ring.Nat
import Mathlib.Logic.Function.Iterate
import TSubSpec.Lib.Bytes

/-!
# `TSubSpec.Lib.Crc`: checksums by polynomial division

The remainder of a byte string, the highest bit first, without reflection and without a final
change. `shift` divides one more bit that is zero, and is linear (`shift_xor`), so a remainder can
be computed from words and tables: a string that fits into the remainder is one word
(`crc_eq_word`).

If the lowest bit of the polynomial is set, then two strings that differ only in a stretch that
fits into the remainder have different remainders (`crc_ne_of_burst`).
-/

set_option autoImplicit false

namespace TSubSpec.Lib.Crc

section

variable {w : Nat} (poly : BitVec w)

/-- One zero bit behind what was divided so far: the remainder moves up, and the polynomial is taken
off if a bit falls out at the top. -/
def shift (c : BitVec w) : BitVec w := if c.msb then (c <<< 1) ^^^ poly else c <<< 1

/-- Some zero bits. -/
def shifts (n : Nat) (c : BitVec w) : BitVec w := (shift poly)^[n] c

/-- A byte as the `k`-th of a word, the first one at its top. -/
def place (w k : Nat) (x : UInt8) : BitVec w := x.toBitVec.setWidth w <<< (w - 8 * (k + 1))

/-- One byte: it is added at the top of the remainder, and eight bits are divided. -/
def feed (c : BitVec w) (x : UInt8) : BitVec w := shifts poly 8 (c ^^^ place w 0 x)

/-- The remainder of a byte string that comes behind the remainder `c`. The remainder of a string
alone has `c` as zero. -/
def crc (c : BitVec w) (bytes : Bytes) : BitVec w := bytes.foldl (feed poly) c

/-- Bytes as a word, from the `k`-th place on. Bytes that are behind its last place are lost. -/
def word (w : Nat) : Nat → Bytes → BitVec w
  | _, [] => 0
  | k, x :: bytes => place w k x ^^^ word w (k + 1) bytes

variable {poly} {c d : BitVec w} {k n : Nat} {x : UInt8}

/-- The remainder is computed piece by piece: behind some octets it goes on from what it was. -/
theorem crc_append (c : BitVec w) (bytes bytes' : Bytes) :
    crc poly c (bytes ++ bytes') = crc poly (crc poly c bytes) bytes' :=
  List.foldl_append

/-- The remainder of a string of octets goes on behind its first octet. -/
theorem crc_cons (c : BitVec w) (x : UInt8) (bytes : Bytes) :
    crc poly c (x :: bytes) = crc poly (feed poly c x) bytes := rfl

/-! ### Linearity -/

/-- Two sums are added part by part. Mathlib has this for commutative monoids, which `BitVec` is not
declared to be for this operation. -/
theorem xor_swap (a b p q : BitVec w) : (a ^^^ p) ^^^ (b ^^^ q) = (a ^^^ b) ^^^ (p ^^^ q) := by
  ac_rfl

/-- A shift to the left is linear over the field of two elements. -/
theorem shiftLeft_xor (c d : BitVec w) (n : Nat) : (c ^^^ d) <<< n = (c <<< n) ^^^ (d <<< n) := by
  refine BitVec.eq_of_getLsbD_eq fun i hi => ?_
  simp only [BitVec.getLsbD_shiftLeft, BitVec.getLsbD_xor]
  cases decide (i < w) <;> cases decide (i < n) <;> simp

/-- One step of the division is linear. Whether the polynomial is subtracted depends on the highest
bit, which is linear too. -/
theorem shift_xor (c d : BitVec w) : shift poly (c ^^^ d) = shift poly c ^^^ shift poly d := by
  have hmask : ∀ c : BitVec w, shift poly c = (c <<< 1) ^^^ (if c.msb then poly else 0) := by
    intro c
    unfold shift
    split <;> simp
  rw [hmask, hmask, hmask, xor_swap, ← shiftLeft_xor, BitVec.msb_xor]
  congr 1
  cases c.msb <;> cases d.msb <;> simp

/-- Any number of steps of the division is linear, so the remainder of a sum is the sum of the
remainders. -/
theorem shifts_xor (n : Nat) (c d : BitVec w) :
    shifts poly n (c ^^^ d) = shifts poly n c ^^^ shifts poly n d := by
  induction n generalizing c d with
  | zero => rfl
  | succ n ih =>
    show shifts poly n (shift poly _) = _
    rw [shift_xor, ih]
    rfl

/-- Steps of the division can be done one after the other. -/
theorem shifts_add (m n : Nat) (c : BitVec w) :
    shifts poly (m + n) c = shifts poly m (shifts poly n c) :=
  Function.iterate_add_apply _ _ _ _

/-- Zero stays zero. -/
theorem shifts_zero_right (n : Nat) : shifts poly n 0 = 0 := by
  have h := @shifts_xor _ poly n 0 0
  rwa [BitVec.xor_self, BitVec.xor_self] at h

/-! ### Words -/

/-- A word is only moved as long as its highest bits are zero. -/
theorem shifts_eq_shiftLeft : ∀ {n : Nat} {c : BitVec w},
    (∀ i < w, w ≤ i + n → c.getLsbD i = false) → shifts poly n c = c <<< n
  | 0, c, _ => by
    rw [BitVec.shiftLeft_zero]
    rfl
  | n + 1, c, h => by
    have hmsb : c.msb = false := by
      rw [BitVec.msb_eq_getLsbD_last]
      by_cases hw : w = 0
      · subst hw
        exact BitVec.getLsbD_of_ge _ _ (Nat.le_refl _)
      · exact h (w - 1) (by omega) (by omega)
    have hshift : shift poly c = c <<< 1 := by
      unfold shift
      rw [hmsb]
      rfl
    have hrest : ∀ i < w, w ≤ i + n → (c <<< 1).getLsbD i = false := by
      intro i hi hn
      rw [BitVec.getLsbD_shiftLeft]
      by_cases hzero : i < 1
      · simp [hzero]
      · simp [h (i - 1) (by omega) (by omega)]
    show shifts poly n (shift poly c) = _
    rw [hshift, shifts_eq_shiftLeft hrest, ← BitVec.shiftLeft_add, Nat.add_comm 1 n]

/-- The bits of an octet that stands at a place of a word: its own ones there, and zeros
elsewhere. -/
theorem getLsbD_place (k : Nat) (x : UInt8) {i : Nat} (hi : i < w) :
    (place w k x).getLsbD i =
      (decide (w - 8 * (k + 1) ≤ i) && x.toBitVec.getLsbD (i - (w - 8 * (k + 1)))) := by
  rw [place, BitVec.getLsbD_shiftLeft, BitVec.getLsbD_setWidth]
  by_cases h : w - 8 * (k + 1) ≤ i
  · simp [hi, h, show ¬i < w - 8 * (k + 1) by omega, show i - (w - 8 * (k + 1)) < w by omega]
  · simp [h, show i < w - 8 * (k + 1) by omega]

/-- Eight bits move a byte to the place before. -/
theorem shifts_place (hk : 8 * (k + 2) ≤ w) : shifts poly 8 (place w (k + 1) x) = place w k x := by
  rw [shifts_eq_shiftLeft, place, ← BitVec.shiftLeft_add,
    show w - 8 * (k + 1 + 1) + 8 = w - 8 * (k + 1) by omega]
  · rfl
  · intro i hi hle
    have hge : x.toBitVec.getLsbD (i - (w - 8 * (k + 1 + 1))) = false :=
      BitVec.getLsbD_of_ge _ _ (by omega)
    rw [getLsbD_place _ _ hi, hge, Bool.and_false]

/-- A byte that comes to the top. -/
theorem shifts_place_zero (hk : 8 * (k + 1) ≤ w) :
    shifts poly (8 * k) (place w k x) = place w 0 x := by
  induction k with
  | zero => rfl
  | succ k ih =>
    rw [show 8 * (k + 1) = 8 * k + 8 by omega, shifts_add, shifts_place (by omega), ih (by omega)]

/-- Eight steps move a word up by one octet, as long as its highest octet is zero. The induction is
on the octets of the word. -/
theorem shifts_word (bytes : Bytes) :
    ∀ {k : Nat}, 8 * (k + 1 + bytes.length) ≤ w →
      shifts poly 8 (word w (k + 1) bytes) = word w k bytes := by
  induction bytes with
  | nil => intro k _; exact shifts_zero_right 8
  | cons x bytes ih =>
    intro k hk
    rw [List.length_cons] at hk
    rw [word, shifts_xor, shifts_place (by omega), ih (by omega)]
    rfl

/-- The remainder of a string that fits into a word. -/
theorem crc_eq_word (bytes : Bytes) :
    ∀ {c : BitVec w}, 8 * bytes.length ≤ w →
      crc poly c bytes = shifts poly (8 * bytes.length) (c ^^^ word w 0 bytes) := by
  induction bytes with
  | nil =>
    intro c _
    exact BitVec.xor_zero.symm
  | cons x bytes ih =>
    intro c hlength
    rw [List.length_cons] at hlength
    rw [crc_cons, ih (by omega), ← @shifts_word _ poly bytes 0 (by omega), feed,
      ← shifts_xor, ← shifts_add, List.length_cons, BitVec.xor_assoc]
    rfl

/-! ### Errors that are found -/

/-- The polynomial does not lose the highest bit. -/
theorem shift_injective (hpoly : poly.getLsbD 0 = true) (h : shift poly c = shift poly d) :
    c = d := by
  have hw : 0 < w := by
    by_contra hw
    obtain rfl : w = 0 := by omega
    simp at hpoly
  -- The lowest bit of the result shows whether the polynomial was added.
  have hlow : ∀ c : BitVec w, (shift poly c).getLsbD 0 = c.msb := by
    intro c
    unfold shift
    cases hmsb : c.msb <;> simp [hpoly]
  have hmsb : c.msb = d.msb := by rw [← hlow c, ← hlow d, h]
  have hshift : c <<< 1 = d <<< 1 := by
    unfold shift at h
    rw [hmsb] at h
    cases hd : d.msb with
    | false => simpa [hd] using h
    | true =>
      rw [hd] at h
      exact (BitVec.xor_left_inj poly).mp h
  refine BitVec.eq_of_getLsbD_eq fun i hi => ?_
  by_cases hlast : i = w - 1
  · rw [hlast, ← BitVec.msb_eq_getLsbD_last, ← BitVec.msb_eq_getLsbD_last, hmsb]
  · have hbit := congrArg (fun v => v.getLsbD (i + 1)) hshift
    simpa only [BitVec.getLsbD_shiftLeft, decide_eq_true (show i + 1 < w by omega),
      decide_eq_false (show ¬i + 1 < 1 by omega), Bool.true_and, Bool.not_false,
      Nat.add_sub_cancel] using hbit

/-- Different words have different remainders, if the polynomial ends with a one: a step of the
division can then be undone. -/
theorem shifts_injective (hpoly : poly.getLsbD 0 = true) (n : Nat)
    (h : shifts poly n c = shifts poly n d) : c = d := by
  induction n generalizing c d with
  | zero => exact h
  | succ n ih => exact shift_injective hpoly (ih h)

/-- Different remainders stay different. -/
theorem crc_injective (hpoly : poly.getLsbD 0 = true) (bytes : Bytes) :
    ∀ {c d : BitVec w}, crc poly c bytes = crc poly d bytes → c = d := by
  induction bytes with
  | nil => intro c d h; exact h
  | cons x bytes ih =>
    intro c d h
    exact (BitVec.xor_left_inj _).mp (shifts_injective hpoly 8 (ih h))

/-- A word from the `k`-th place on leaves the places before. -/
theorem getLsbD_word_high (bytes : Bytes) :
    ∀ {k i : Nat}, 8 * (k + bytes.length) ≤ w → i < w → w - 8 * k ≤ i →
      (word w k bytes).getLsbD i = false := by
  induction bytes with
  | nil => intro k i _ _ _; exact BitVec.getLsbD_zero
  | cons x bytes ih =>
    intro k i hk hi hle
    rw [List.length_cons] at hk
    have hge : x.toBitVec.getLsbD (i - (w - 8 * (k + 1))) = false :=
      BitVec.getLsbD_of_ge _ _ (by omega)
    rw [word, BitVec.getLsbD_xor, getLsbD_place k x hi, hge, Bool.and_false,
      ih (by omega) hi (by omega)]
    rfl

/-- Bytes of the same number are determined by their word. -/
theorem word_injective : ∀ {bytes bytes' : Bytes} {k : Nat}, bytes.length = bytes'.length →
    8 * (k + bytes.length) ≤ w → word w k bytes = word w k bytes' → bytes = bytes'
  | [], [], _, _, _, _ => rfl
  | x :: bytes, x' :: bytes', k, hlength, hk, h => by
    rw [List.length_cons] at hk
    have hlength' : bytes.length = bytes'.length := Nat.succ.inj hlength
    -- The byte at the place `k` has its bits to itself.
    have hbits : ∀ (x : UInt8) (bytes : Bytes), 8 * (k + (bytes.length + 1)) ≤ w → ∀ j < 8,
        (word w k (x :: bytes)).getLsbD (w - 8 * (k + 1) + j) = x.toBitVec.getLsbD j := by
      intro x bytes hk j hj
      rw [word, BitVec.getLsbD_xor, getLsbD_place k x (by omega),
        getLsbD_word_high bytes (by omega) (by omega) (by omega),
        decide_eq_true (Nat.le_add_right _ _), Nat.add_sub_cancel_left, Bool.true_and,
        Bool.xor_false]
    have hx : x = x' := by
      refine UInt8.toBitVec_inj.mp (BitVec.eq_of_getLsbD_eq fun j hj => ?_)
      rw [← hbits x bytes hk j hj, ← hbits x' bytes' (hlength' ▸ hk) j hj, h]
    subst hx
    have hrest : word w (k + 1) bytes = word w (k + 1) bytes' := (BitVec.xor_right_inj _).mp h
    rw [word_injective hlength' (by omega) hrest]

/-- Strings that differ in one stretch that fits into the remainder have different remainders. -/
theorem crc_ne_of_burst (hpoly : poly.getLsbD 0 = true) {before after burst burst' : Bytes}
    (hlength : burst.length = burst'.length) (hfits : 8 * burst.length ≤ w) (hne : burst ≠ burst') :
    crc poly c (before ++ (burst ++ after)) ≠ crc poly c (before ++ (burst' ++ after)) := by
  intro h
  rw [crc_append, crc_append, crc_append, crc_append] at h
  have hburst := crc_injective hpoly after h
  rw [crc_eq_word burst hfits, crc_eq_word burst' (hlength ▸ hfits), hlength] at hburst
  have hword := (BitVec.xor_right_inj _).mp (shifts_injective hpoly _ hburst)
  exact hne (word_injective hlength (by omega) hword)

end

end TSubSpec.Lib.Crc
