import TSubSpec.Ogg.Packing

/-!
# `TSubSpec.Ogg.Unpacking`: what is read from a buffer

A reader has a string of bits and a position in it. Reading `n` bits gives the word of the next `n`
bits, or -1 if there are fewer, and then the position is behind the string for good
(`applyAll_past`).

`performAll_readinit` says that the functions of the source are this reader, for every run of them
on any octets, and that they never leave the buffer. What was written is read back
(`performAll_of_writes`), since a buffer holds it (`Packed`).
-/

set_option autoImplicit false

namespace TSubSpec.Ogg

open TSubSpec.Lib

namespace OggpackBuffer

/-! ### Words from octets -/

section

variable {o : BitOrder} {x : UInt8} {endbit k t n : Nat}

/-- The bits of an octet that is moved up inside the result. -/
theorem getLsbD_shiftLeft_octet (x : UInt8) (s : Nat) {i : Nat} (hi : i < 32) :
    (shiftLeft x s).getLsbD i = (decide (s ≤ i) && x.toNat.testBit (i - s)) := by
  have hbit : x.toBitVec.getLsbD (i - s) = x.toNat.testBit (i - s) := rfl
  rw [shiftLeft, BitVec.getLsbD_signExtend, if_pos hi, BitVec.getLsbD_shiftLeft,
    BitVec.getLsbD_setWidth, hbit]
  by_cases hs : s ≤ i
  · simp [hs, hi, show i < 64 by omega, show ¬i < s by omega, show i - s < 32 by omega]
  · simp [hs, show i < s by omega]

/-- A bit at `i` is one of the octet if `i` is, and then it stands at `j`. -/
theorem testBit_octet_iff {P : Prop} [Decidable P] {i j : Nat} (hP : P ↔ i < 8)
    (hj : i < 8 → j = i) : x.toNat.testBit i = (decide P && x.toNat.testBit j) := by
  by_cases hi : i < 8
  · rw [decide_eq_true (hP.mpr hi), hj hi, Bool.true_and]
  · rw [decide_eq_false (mt hP.mp hi), Bool.false_and]
    exact Nat.testBit_lt_two_pow (Nat.lt_of_lt_of_le x.toNat_lt
      (Nat.pow_le_pow_right Nat.two_pos (Nat.not_lt.mp hi)))

/-- The bits of an octet that is moved down to the end of the result. -/
theorem getLsbD_shiftRight_octet (x : UInt8) (s : Nat) {i : Nat} (hi : s + i < 64) :
    (x.toBitVec.setWidth 64 >>> s).getLsbD i = x.toNat.testBit (s + i) := by
  rw [BitVec.getLsbD_ushiftRight, BitVec.getLsbD_setWidth, decide_eq_true hi, Bool.true_and]
  rfl

/-- The bits that an octet adds to the word. -/
theorem getLsbD_piece (hendbit : endbit < 8) (hk : k ≤ 4) (hk4 : k = 4 → endbit ≠ 0) (ht : t < 32) :
    (piece o endbit k x).getLsbD (o.place 32 t) =
      (decide (8 * k ≤ t + endbit ∧ t + endbit < 8 * k + 8) &&
        o.fieldBit 8 x.toNat (t + endbit - 8 * k)) := by
  cases o with
  | lsb =>
    -- The first octet is moved down by the bits already read, the others up to their places.
    show (piece .lsb endbit k x).getLsbD t = (_ && x.toNat.testBit (t + endbit - 8 * k))
    cases k with
    | zero =>
      show (x.toBitVec.setWidth 64 >>> endbit).getLsbD t = _
      rw [getLsbD_shiftRight_octet x endbit (by omega)]
      exact testBit_octet_iff (by omega) (by omega)
    | succ k =>
      show (shiftLeft x (8 * (k + 1) - endbit)).getLsbD t = _
      rw [getLsbD_shiftLeft_octet x _ ht]
      by_cases hle : 8 * (k + 1) - endbit ≤ t
      · rw [decide_eq_true hle, Bool.true_and]
        exact testBit_octet_iff (by omega) (by omega)
      · rw [decide_eq_false hle, decide_eq_false (by omega), Bool.false_and, Bool.false_and]
  | msb =>
    show (piece .msb endbit k x).getLsbD (31 - t) =
      (_ && x.toNat.testBit (7 - (t + endbit - 8 * k)))
    -- From the high end it is the other way round: only the fifth octet is moved down.
    by_cases hlast : k = 4
    · subst hlast
      have hpos : endbit ≠ 0 := hk4 rfl
      show (x.toBitVec.setWidth 64 >>> (8 - endbit)).getLsbD (31 - t) = _
      rw [getLsbD_shiftRight_octet x _ (by omega)]
      exact testBit_octet_iff (by omega) (by omega)
    · have hpiece : piece .msb endbit k x = shiftLeft x (24 - 8 * k + endbit) := by
        have hk' : k = 0 ∨ k = 1 ∨ k = 2 ∨ k = 3 := by omega
        rcases hk' with rfl | rfl | rfl | rfl <;> rfl
      rw [hpiece, getLsbD_shiftLeft_octet x _ (by omega)]
      by_cases hle : 24 - 8 * k + endbit ≤ 31 - t
      · rw [decide_eq_true hle, Bool.true_and]
        exact testBit_octet_iff (by omega) (by omega)
      · rw [decide_eq_false hle, decide_eq_false (by omega), Bool.false_and, Bool.false_and]

/-- The bits of the mask of a width. -/
theorem getLsbD_ones {m i : Nat} (hm : m ≤ 32) :
    (BitVec.ofNat 64 (2 ^ m - 1)).getLsbD i = decide (i < m) := by
  rw [BitVec.getLsbD_ofNat, Nat.testBit_two_pow_sub_one]
  by_cases hi : i < m
  · simp [hi, show i < 64 by omega]
  · simp [hi]

/-- The word has the bits that were gathered for it. -/
theorem finish_eq {ret : BitVec 64} {f : Nat → Bool} (hn : n ≤ 32)
    (h : ∀ t < n, ret.getLsbD (o.place 32 t) = f t) :
    finish o n ret = BitVec.ofNat 64 (o.number n f) := by
  refine BitVec.eq_of_getLsbD_eq fun i hi => ?_
  rw [BitVec.getLsbD_ofNat, BitOrder.testBit_number, decide_eq_true hi, Bool.true_and]
  cases o with
  | lsb =>
    show (BitVec.ofNat 64 (mask.getD n 0) &&& ret).getLsbD i = (_ && f i)
    rw [mask_eq hn, BitVec.getLsbD_and, getLsbD_ones hn]
    by_cases hlt : i < n
    · rw [← h i hlt]
      rfl
    · rw [decide_eq_false hlt, Bool.false_and, Bool.false_and]
  | msb =>
    show (((ret &&& 0xffffffff#64) >>> ((32 - n) >>> 1)) >>> ((32 - n + 1) >>> 1)).getLsbD i =
      (_ && f (n - 1 - i))
    have hones : (0xffffffff#64) = BitVec.ofNat 64 (2 ^ 32 - 1) := rfl
    -- The two shifts are one by `32 - n`.
    have hshift : (32 - n) >>> 1 + ((32 - n + 1) >>> 1 + i) = 32 - n + i := by
      rw [Nat.shiftRight_eq_div_pow, Nat.shiftRight_eq_div_pow]
      omega
    rw [BitVec.getLsbD_ushiftRight, BitVec.getLsbD_ushiftRight, hshift, BitVec.getLsbD_and, hones,
      getLsbD_ones (Nat.le_refl 32)]
    by_cases hlt : i < n
    · have hplace : 32 - n + i = BitOrder.msb.place 32 (n - 1 - i) := by
        show 32 - n + i = 32 - 1 - (n - 1 - i)
        omega
      rw [decide_eq_true (show 32 - n + i < 32 by omega), Bool.and_true, hplace, h _ (by omega),
        decide_eq_true hlt, Bool.true_and]
    · rw [decide_eq_false (show ¬32 - n + i < 32 by omega), Bool.and_false, decide_eq_false hlt,
        Bool.false_and]

end

/-! ### The state of a reader -/

/-- The buffer has the octets `buf`, and the position is `pos`. A position behind the end is one bit
behind it, whatever moved there. -/
structure Reads (b : OggpackBuffer) (buf : Bytes) (pos : Nat) : Prop where
  buffer : b.buffer = buf.map some
  storage : b.storage = buf.length
  pos_eq : pos = 8 * b.endbyte + b.endbit
  endbit_lt : b.endbit < 8
  /-- Behind the last octet the pointer may be null. -/
  ptr : pos ≤ 8 * buf.length → b.ptr = some b.endbyte

/-- The next `n` bits as a word, or nothing if there are fewer. -/
def field? (o : BitOrder) (bits : List Bool) (pos n : Nat) : Option Nat :=
  if pos + n ≤ bits.length then some (o.number n fun i => bits.getD (pos + i) false) else none

variable {o : BitOrder} {b : OggpackBuffer} {buf : Bytes} {pos n k : Nat}

/-- A buffer that is opened for reading is at its first bit. -/
theorem reads_readinit (buf : Bytes) : Reads (readinit buf) buf 0 :=
  ⟨rfl, rfl, rfl, Nat.zero_lt_succ 7, fun _ => rfl⟩

/-- A load in front of the end gives the octet that is there, so it is no read outside of the
buffer. -/
theorem Reads.load (h : Reads b buf pos) (hk : b.endbyte + k < buf.length) :
    b.load k = some (buf[b.endbyte + k]) := by
  have hpos := h.pos_eq
  have hendbit := h.endbit_lt
  refine load_eq (h.ptr (by omega)) ?_
  rw [h.buffer, List.getElem?_map, List.getElem?_eq_getElem hk]
  rfl

/-- The loads of a list of octets, as far as there are bits: each adds its piece. -/
theorem foldlM_load {total : Nat} (h : Reads b buf pos)
    (hroom : ∀ k, 8 * k < total → b.endbyte + k < buf.length) :
    ∀ (ks : List Nat) (ret : BitVec 64), ∃ ret',
      ks.foldlM (fun ret k =>
        if 8 * k < total ∧ (k = 4 → b.endbit ≠ 0) then do
          let x ← b.load k
          return ret ||| piece o b.endbit k x
        else some ret) ret = some ret' ∧
      ∀ i, ret'.getLsbD i = true ↔ ret.getLsbD i = true ∨
        ∃ k ∈ ks, (8 * k < total ∧ (k = 4 → b.endbit ≠ 0)) ∧
          (piece o b.endbit k (buf.getD (b.endbyte + k) 0)).getLsbD i = true := by
  intro ks
  -- Over the octets that are left to load; the bound on the total guards each of them, as in the
  -- code.
  induction ks with
  | nil => intro ret; exact ⟨ret, rfl, fun i => by simp⟩
  | cons k ks ih =>
    intro ret
    rw [List.foldlM_cons]
    by_cases hk : 8 * k < total ∧ (k = 4 → b.endbit ≠ 0)
    · have hlt := hroom k hk.1
      have hget : buf.getD (b.endbyte + k) 0 = buf[b.endbyte + k] := List.getD_eq_getElem _ _ hlt
      obtain ⟨ret', hfold, hbits⟩ := ih (ret ||| piece o b.endbit k buf[b.endbyte + k])
      refine ⟨ret', ?_, fun i => ?_⟩
      · rw [if_pos hk, h.load hlt]
        exact hfold
      · rw [hbits, BitVec.getLsbD_or, Bool.or_eq_true, or_assoc, List.exists_mem_cons_iff,
          and_iff_right hk, hget]
    · obtain ⟨ret', hfold, hbits⟩ := ih ret
      refine ⟨ret', ?_, fun i => ?_⟩
      · rw [if_neg hk]
        exact hfold
      · rw [hbits, List.exists_mem_cons_iff]
        simp only [hk, false_and, false_or]

/-- The bit `t` behind the position, in its octet. -/
theorem Reads.getD_stream (h : Reads b buf pos) (t : Nat) :
    (o.stream buf).getD (pos + t) false =
      (decide (b.endbyte + (t + b.endbit) / 8 < buf.length) &&
        o.fieldBit 8 (buf.getD (b.endbyte + (t + b.endbit) / 8) 0).toNat ((t + b.endbit) % 8)) := by
  have hpos := h.pos_eq
  have hsplit : pos + t = 8 * (b.endbyte + (t + b.endbit) / 8) + (t + b.endbit) % 8 := by omega
  rw [List.getD, hsplit, BitOrder.getElem?_stream _ _ (Nat.mod_lt _ (by omega))]
  by_cases hlt : b.endbyte + (t + b.endbit) / 8 < buf.length
  · rw [List.getElem?_eq_getElem hlt, List.getD_eq_getElem _ _ hlt, decide_eq_true hlt]
    rfl
  · rw [List.getElem?_eq_none (Nat.not_lt.mp hlt), decide_eq_false hlt]
    rfl

/-- The octets of `n` bits, which are all in the buffer. -/
theorem Reads.gather (h : Reads b buf pos) (hn : n ≤ 32) (hfirst : b.endbyte < buf.length)
    (hroom : ∀ k, 8 * k < n + b.endbit → b.endbyte + k < buf.length) :
    ∃ ret, b.gather o (n + b.endbit) = some ret ∧
      ∀ t < n, ret.getLsbD (o.place 32 t) = (o.stream buf).getD (pos + t) false := by
  have hendbit := h.endbit_lt
  obtain ⟨ret, hfold, hbits⟩ := foldlM_load (o := o) h hroom [1, 2, 3, 4]
    (piece o b.endbit 0 buf[b.endbyte])
  refine ⟨ret, ?_, fun t ht => ?_⟩
  · unfold OggpackBuffer.gather
    rw [h.load (k := 0) hfirst]
    exact hfold
  · have hlt : b.endbyte + (t + b.endbit) / 8 < buf.length := hroom _ (by omega)
    rw [h.getD_stream, decide_eq_true hlt, Bool.true_and, Bool.eq_iff_iff, hbits]
    -- The bit comes from the octet it is in, and from no other.
    have hpiece : ∀ k ≤ 4, (k = 4 → b.endbit ≠ 0) →
        ((piece o b.endbit k (buf.getD (b.endbyte + k) 0)).getLsbD (o.place 32 t) = true ↔
          k = (t + b.endbit) / 8 ∧ o.fieldBit 8 (buf.getD (b.endbyte + (t + b.endbit) / 8) 0).toNat
            ((t + b.endbit) % 8) = true) := by
      intro k hk hk4
      rw [getLsbD_piece hendbit hk hk4 (by omega), Bool.and_eq_true, decide_eq_true_iff]
      constructor
      · intro ⟨hrange, hbit⟩
        have hk' : k = (t + b.endbit) / 8 := by omega
        refine ⟨hk', ?_⟩
        rw [← hk', show (t + b.endbit) % 8 = t + b.endbit - 8 * k by omega]
        exact hbit
      · rintro ⟨rfl, hbit⟩
        refine ⟨by omega, ?_⟩
        rw [show t + b.endbit - 8 * ((t + b.endbit) / 8) = (t + b.endbit) % 8 by omega]
        exact hbit
    have hget : buf[b.endbyte] = buf.getD (b.endbyte + 0) 0 :=
      (List.getD_eq_getElem _ _ hfirst).symm
    rw [hget, hpiece 0 (by omega) (by omega)]
    constructor
    · rintro (⟨-, hbit⟩ | ⟨k, hk, ⟨-, hk4⟩, hbit⟩)
      · exact hbit
      · have hk' : k ≤ 4 := by
          simp only [List.mem_cons, List.not_mem_nil, or_false] at hk
          omega
        exact ((hpiece k hk' hk4).mp hbit).2
    · intro hbit
      by_cases hzero : (t + b.endbit) / 8 = 0
      · exact .inl ⟨hzero.symm, hbit⟩
      · have hk4 : (t + b.endbit) / 8 = 4 → b.endbit ≠ 0 := by omega
        refine .inr ⟨(t + b.endbit) / 8, ?_, ⟨by omega, hk4⟩, ?_⟩
        · simp only [List.mem_cons, List.not_mem_nil, or_false]
          omega
        · exact (hpiece _ (by omega) hk4).mpr ⟨rfl, hbit⟩

/-- The word of the next `n` bits is fetched if there are as many. -/
theorem Reads.fetch (h : Reads b buf pos) (hn : n ≤ 32) :
    b.fetch o n = some ((field? o (o.stream buf) pos n).map (BitVec.ofNat 64)) := by
  have hpos := h.pos_eq
  have hendbit := h.endbit_lt
  unfold OggpackBuffer.fetch field?
  rw [BitOrder.length_stream, h.storage]
  by_cases hlt : pos + n ≤ 8 * buf.length
  · rw [if_neg (by omega), if_pos hlt]
    by_cases hnone : buf.length ≤ b.endbyte + 4 ∧ n + b.endbit = 0
    · obtain rfl : n = 0 := by omega
      rw [if_pos hnone]
      rfl
    · rw [if_neg hnone]
      obtain ⟨ret, hret, hbits⟩ := h.gather (o := o) hn (by omega) (fun k hk => by omega)
      rw [hret]
      show some (some _) = some (some _)
      rw [finish_eq hn hbits]
  · rw [if_pos (by omega), if_neg hlt]
    rfl

/-- A field of at most 32 bits is not negative in the 64 bits of a `long`, so -1 is no field. -/
theorem number_toInt (hn : n ≤ 32) (f : Nat → Bool) :
    (BitVec.ofNat 64 (o.number n f)).toInt = (o.number n f : Int) := by
  have hlt : o.number n f < 2 ^ n := BitOrder.number_lt f
  have hle : 2 ^ n ≤ 2 ^ 32 := Nat.pow_le_pow_right Nat.two_pos hn
  have htoNat : (BitVec.ofNat 64 (o.number n f)).toNat = o.number n f := by
    rw [BitVec.toNat_ofNat]
    exact Nat.mod_eq_of_lt (by omega)
  rw [BitVec.toInt_eq_toNat_of_lt (by omega), htoNat]

/-! ### The position -/

/-- Moving on by bits that are there. -/
theorem Reads.advance (h : Reads b buf pos) (hn : pos + n ≤ 8 * buf.length) :
    Reads (b.advance (n + b.endbit)) buf (pos + n) := by
  have hpos := h.pos_eq
  refine ⟨h.buffer, h.storage, ?_, Nat.mod_lt _ (by omega), fun _ => ?_⟩
  · show pos + n = 8 * (b.endbyte + (n + b.endbit) / 8) + (n + b.endbit) % 8
    omega
  · show b.ptr.map _ = some (b.endbyte + (n + b.endbit) / 8)
    rw [h.ptr (by omega)]
    rfl

/-- Behind an overflow the position is past the end. -/
theorem Reads.overflow (h : Reads b buf pos) : Reads b.overflow buf (8 * buf.length + 1) := by
  refine ⟨h.buffer, h.storage, ?_, Nat.one_lt_succ_succ 6, fun hle => by omega⟩
  show 8 * buf.length + 1 = 8 * b.storage + 1
  rw [h.storage]

/-- An advance that does not overflow is the one of a read. -/
theorem adv_eq (b : OggpackBuffer) {n : Nat} (hn : n + b.endbit + 7 ≤ intMax) :
    b.adv n = some (if b.storage < b.endbyte + (n + b.endbit + 7) / 8 then b.overflow
      else b.advance (n + b.endbit)) := by
  unfold OggpackBuffer.adv
  have hdiv : ((n : Int) + b.endbit).tdiv 8 = ((n + b.endbit) / 8 : Nat) := by
    rw [Int.tdiv_eq_ediv_of_nonneg (by omega)]
    omega
  have hmoved : ∀ p : Nat, ((p : Int) + ((n + b.endbit) / 8 : Nat)).toNat =
      p + (n + b.endbit) / 8 := fun p => by omega
  have hbit : (((n : Int) + b.endbit) % 8).toNat = (n + b.endbit) % 8 := by omega
  simp only [hdiv, hmoved, hbit]
  rw [if_neg (by omega)]
  by_cases hlt : b.storage < b.endbyte + (n + b.endbit + 7) / 8
  · rw [if_pos (by omega), if_pos hlt]
  · rw [if_neg (by omega), if_neg hlt, if_neg (by omega)]
    rfl

/-- `oggpack_adv` moves to the place, or to the mark of the end where there are not so many bits.
The sum of bits must be a number of an `int`. -/
theorem Reads.adv (h : Reads b buf pos) {n : Nat} (hn : n + 14 ≤ intMax) :
    ∃ b', b.adv n = some b' ∧
      Reads b' buf (if pos + n ≤ 8 * buf.length then pos + n else 8 * buf.length + 1) := by
  have hpos := h.pos_eq
  have hstorage := h.storage
  have hendbit := h.endbit_lt
  refine ⟨_, adv_eq b (by omega), ?_⟩
  by_cases hlt : pos + n ≤ 8 * buf.length
  · rw [if_pos hlt, if_neg (by omega)]
    exact h.advance hlt
  · rw [if_neg hlt, if_pos (by omega)]
    exact h.overflow

/-- One bit further, without a check. -/
theorem Reads.adv1 (h : Reads b buf pos) : Reads b.adv1 buf (pos + 1) := by
  have hpos := h.pos_eq
  have hendbit := h.endbit_lt
  unfold OggpackBuffer.adv1
  split
  · refine ⟨h.buffer, h.storage, ?_, Nat.zero_lt_succ 7, fun hle => ?_⟩
    · show pos + 1 = 8 * (b.endbyte + 1) + 0
      omega
    · show b.ptr.map _ = some (b.endbyte + 1)
      rw [h.ptr (by omega)]
      rfl
  · refine ⟨h.buffer, h.storage, ?_, by show b.endbit + 1 < 8; omega, fun hle => ?_⟩
    · show pos + 1 = 8 * b.endbyte + (b.endbit + 1)
      omega
    · exact h.ptr (by omega)

/-! ### Runs of operations -/

/-- The operations on a buffer for reading. -/
inductive ReadOp
  | look (bits : Int)
  | look1
  | read (bits : Int)
  | read1
  | adv (bits : Int)
  | adv1
  deriving DecidableEq, Repr

namespace ReadOp

/-- The value that the operation returns (0 for an advance), and the buffer behind it. -/
def perform (o : BitOrder) (b : OggpackBuffer) : ReadOp → Option (Int × OggpackBuffer)
  | look n => (b.look o n).map fun v => (v, b)
  | look1 => (b.look1 o).map fun v => (v, b)
  | read n => b.read o n
  | read1 => b.read1 o
  | adv n => (b.adv n).map fun b => (0, b)
  | adv1 => some (0, b.adv1)

/-- An advance goes forward, and what it computes is an `int`: there are at most seven bits in
front of it in an octet, and it rounds up. -/
def Allowed : ReadOp → Prop
  | adv n => 0 ≤ n ∧ n + 14 ≤ intMax
  | _ => True

/-- What is returned for a word. -/
def value : Option Nat → Int
  | some v => v
  | none => -1

/-- The position behind a step of `n` bits. It is past the end if there are fewer. -/
def moved (bits : List Bool) (pos n : Nat) : Nat :=
  if pos + n ≤ bits.length then pos + n else bits.length + 1

/-- What the operation returns on a string of bits, and the position behind it. This says what a
read is, without octets and masks. -/
def apply (o : BitOrder) (bits : List Bool) (pos : Nat) : ReadOp → Int × Nat
  | look n => (if n < 0 ∨ 32 < n then -1 else value (field? o bits pos n.toNat), pos)
  | look1 => (value (field? o bits pos 1), pos)
  | read n => if n < 0 ∨ 32 < n then (-1, bits.length + 1)
    else (value (field? o bits pos n.toNat), moved bits pos n.toNat)
  | read1 => (value (field? o bits pos 1), moved bits pos 1)
  | adv n => (0, moved bits pos n.toNat)
  | adv1 => (0, pos + 1)

end ReadOp

/-- The values that a run of operations returns. There is none if one of them has a fault, that is
an access outside of the buffer. -/
def performAll (o : BitOrder) : OggpackBuffer → List ReadOp → Option (List Int)
  | _, [] => some []
  | b, op :: ops => do
    let (v, b) ← op.perform o b
    let vs ← performAll o b ops
    return v :: vs

/-- The values that a run of operations returns on a string of bits. -/
def applyAll (o : BitOrder) (bits : List Bool) : Nat → List ReadOp → List Int
  | _, [] => []
  | pos, op :: ops => (op.apply o bits pos).1 :: applyAll o bits (op.apply o bits pos).2 ops

/-- The position behind a run of operations on a string of bits. -/
def behind (o : BitOrder) (bits : List Bool) : Nat → List ReadOp → Nat
  | pos, [] => pos
  | pos, op :: ops => behind o bits (op.apply o bits pos).2 ops

/-- The single bit is the one at the position. -/
theorem bit1_eq {endbit : Nat} (x : UInt8) :
    bit1 o endbit x = (o.fieldBit 8 x.toNat endbit).toNat := by
  have hbit : ∀ i, (x.toNat >>> i) &&& 1 = (x.toNat.testBit i).toNat := by
    intro i
    rw [Nat.and_one_is_mod, Nat.toNat_testBit, Nat.shiftRight_eq_div_pow]
  cases o with
  | lsb => exact hbit endbit
  | msb => exact hbit (7 - endbit)

/-- A single bit is a word of one bit. -/
theorem Reads.field?_one (h : Reads b buf pos) (hlt : b.endbyte < buf.length) :
    field? o (o.stream buf) pos 1 = some (bit1 o b.endbit buf[b.endbyte]) := by
  have hpos := h.pos_eq
  have hendbit := h.endbit_lt
  have hdiv : b.endbyte + (0 + b.endbit) / 8 = b.endbyte := by omega
  have hmod : (0 + b.endbit) % 8 = b.endbit := by omega
  unfold field?
  rw [BitOrder.length_stream, if_pos (by omega), BitOrder.number_one, h.getD_stream, hdiv, hmod,
    decide_eq_true hlt, List.getD_eq_getElem _ _ hlt, Bool.true_and, bit1_eq]

/-- Behind the last octet there is no bit. -/
theorem Reads.field?_one_none (h : Reads b buf pos) (hle : buf.length ≤ b.endbyte) :
    field? o (o.stream buf) pos 1 = none := by
  have hpos := h.pos_eq
  unfold field?
  rw [BitOrder.length_stream, if_neg (by omega)]

/-- A word that is fetched is returned as it is. -/
theorem value_field? (bits : List Bool) (hn : n ≤ 32) :
    ReadOp.value (field? o bits pos n) =
      match (field? o bits pos n).map (BitVec.ofNat 64) with
      | none => -1
      | some ret => ret.toInt := by
  unfold field?
  split
  · exact (number_toInt hn _).symm
  · rfl

/-- Where a read leaves the buffer: behind the field, or at the mark of the end. -/
theorem Reads.moved (h : Reads b buf pos) (n : Nat) :
    Reads (match (field? o (o.stream buf) pos n).map (BitVec.ofNat 64) with
      | none => b.overflow
      | some _ => b.advance (n + b.endbit)) buf (ReadOp.moved (o.stream buf) pos n) := by
  unfold field? ReadOp.moved
  rw [BitOrder.length_stream]
  by_cases hlt : pos + n ≤ 8 * buf.length
  · rw [if_pos hlt, if_pos hlt]
    exact h.advance hlt
  · rw [if_neg hlt, if_neg hlt]
    exact h.overflow

/-- `oggpack_look` returns the field that is there, or -1, and loads no octet outside of the
buffer. -/
theorem Reads.look (h : Reads b buf pos) (n : Int) :
    b.look o n = some ((ReadOp.look n).apply o (o.stream buf) pos).1 := by
  unfold OggpackBuffer.look
  show _ = some (if n < 0 ∨ 32 < n then -1 else ReadOp.value _)
  by_cases hn : n < 0 ∨ 32 < n
  · rw [if_pos hn, if_pos hn]
  · rw [if_neg hn, if_neg hn, h.fetch (by omega), value_field? _ (by omega)]
    cases (field? o (o.stream buf) pos n.toNat).map (BitVec.ofNat 64) <;> rfl

/-- `oggpack_look1` does so for one bit. -/
theorem Reads.look1 (h : Reads b buf pos) :
    b.look1 o = some (ReadOp.look1.apply o (o.stream buf) pos).1 := by
  have hstorage := h.storage
  unfold OggpackBuffer.look1
  show _ = some (ReadOp.value _)
  by_cases hlt : b.endbyte < buf.length
  · rw [if_neg (by omega), h.field?_one hlt, h.load (k := 0) hlt]
    rfl
  · rw [if_pos (by omega), h.field?_one_none (Nat.not_lt.mp hlt)]
    rfl

/-- `oggpack_read` returns what `oggpack_look` would, and moves on. -/
theorem Reads.read (h : Reads b buf pos) (n : Int) :
    ∃ b', b.read o n = some (((ReadOp.read n).apply o (o.stream buf) pos).1, b') ∧
      Reads b' buf ((ReadOp.read n).apply o (o.stream buf) pos).2 := by
  unfold OggpackBuffer.read
  show ∃ b', _ = some ((if n < 0 ∨ 32 < n then (_, _) else (_, _)).1, b') ∧
    Reads b' buf (if n < 0 ∨ 32 < n then (_, _) else (_, _)).2
  by_cases hn : n < 0 ∨ 32 < n
  · rw [if_pos hn, if_pos hn, BitOrder.length_stream]
    exact ⟨b.overflow, rfl, h.overflow⟩
  · rw [if_neg hn, if_neg hn, h.fetch (by omega), value_field? _ (by omega)]
    have hmoved := h.moved (o := o) n.toNat
    cases hfield : (field? o (o.stream buf) pos n.toNat).map (BitVec.ofNat 64) with
    | none =>
      rw [hfield] at hmoved
      exact ⟨b.overflow, rfl, hmoved⟩
    | some ret =>
      rw [hfield] at hmoved
      exact ⟨b.advance (n.toNat + b.endbit), rfl, hmoved⟩

/-- `oggpack_read1` does so for one bit. -/
theorem Reads.read1 (h : Reads b buf pos) :
    ∃ b', b.read1 o = some ((ReadOp.read1.apply o (o.stream buf) pos).1, b') ∧
      Reads b' buf (ReadOp.read1.apply o (o.stream buf) pos).2 := by
  have hpos := h.pos_eq
  have hendbit := h.endbit_lt
  have hstorage := h.storage
  unfold OggpackBuffer.read1
  show ∃ b', _ = some (ReadOp.value _, b') ∧ Reads b' buf (ReadOp.moved _ pos 1)
  unfold ReadOp.moved
  rw [BitOrder.length_stream]
  by_cases hlt : b.endbyte < buf.length
  · rw [if_neg (by omega), if_pos (by omega), h.field?_one hlt, h.load (k := 0) hlt]
    exact ⟨b.adv1, rfl, h.adv1⟩
  · rw [if_pos (by omega), if_neg (by omega), h.field?_one_none (Nat.not_lt.mp hlt)]
    exact ⟨b.overflow, rfl, h.overflow⟩

/-- One operation returns what it returns on the bits, and moves as there. -/
theorem Reads.perform (h : Reads b buf pos) {op : ReadOp} (hop : op.Allowed) :
    ∃ b', op.perform o b = some ((op.apply o (o.stream buf) pos).1, b') ∧
      Reads b' buf (op.apply o (o.stream buf) pos).2 := by
  cases op with
  | look n =>
    refine ⟨b, ?_, h⟩
    show (b.look o n).map _ = _
    rw [h.look]
    rfl
  | look1 =>
    refine ⟨b, ?_, h⟩
    show (b.look1 o).map _ = _
    rw [h.look1]
    rfl
  | read n => exact h.read n
  | read1 => exact h.read1
  | adv n =>
    obtain ⟨hnonneg, hle⟩ := hop
    obtain ⟨m, rfl⟩ := Int.eq_ofNat_of_zero_le hnonneg
    obtain ⟨b', hb', h'⟩ := h.adv (n := m) (by omega)
    refine ⟨b', ?_, ?_⟩
    · show (b.adv m).map _ = _
      rw [hb']
      rfl
    · -- A move behind the end stops at the end, which is the state of a failed read.
      show Reads _ buf (ReadOp.moved _ pos m)
      unfold ReadOp.moved
      rw [BitOrder.length_stream]
      exact h'
  | adv1 => exact ⟨b.adv1, rfl, h.adv1⟩

/-- A run of operations returns what it returns on the bits. The induction is on the run. -/
theorem Reads.performAll {ops : List ReadOp} (hops : ∀ op ∈ ops, op.Allowed) :
    ∀ {b : OggpackBuffer} {pos : Nat}, Reads b buf pos →
      b.performAll o ops = some (applyAll o (o.stream buf) pos ops) := by
  induction ops with
  | nil => intro b pos _; rfl
  | cons op ops ih =>
    intro b pos h
    obtain ⟨b', hb', h'⟩ := h.perform (o := o) (hops op List.mem_cons_self)
    rw [OggpackBuffer.performAll, hb']
    show (b'.performAll o ops).bind _ = _
    rw [ih (fun op hop => hops op (List.mem_cons_of_mem _ hop)) h']
    rfl

/-- What an operation returns when the position is past the end. -/
def ReadOp.past : ReadOp → Int
  | adv _ => 0
  | adv1 => 0
  | _ => -1

/-- Past the end every call gives the failure that it gives there, and stays past the end. -/
theorem ReadOp.apply_past {bits : List Bool} (op : ReadOp) (hpos : bits.length < pos) :
    (op.apply o bits pos).1 = op.past ∧ bits.length < (op.apply o bits pos).2 := by
  have hfield : ∀ n, field? o bits pos n = none := fun n => if_neg (by omega)
  have hmoved : ∀ n, ReadOp.moved bits pos n = bits.length + 1 := fun n => if_neg (by omega)
  cases op with
  | look n => simp [apply, past, value, hfield, hpos]
  | look1 => simp [apply, past, value, hfield, hpos]
  | read n => simp [apply, past, value, hfield, hmoved]
  | read1 => simp [apply, past, value, hfield, hmoved]
  | adv n => simp [apply, past, hmoved]
  | adv1 => simp [apply, past, Nat.lt_succ_of_lt hpos]

/-- Behind the end every read and every look returns -1, for good. -/
theorem applyAll_past {bits : List Bool} (ops : List ReadOp) :
    ∀ {pos : Nat}, bits.length < pos → applyAll o bits pos ops = ops.map ReadOp.past := by
  induction ops with
  | nil => intro pos _; rfl
  | cons op ops ih =>
    intro pos hpos
    obtain ⟨hvalue, hnext⟩ := op.apply_past (o := o) hpos
    rw [applyAll, hvalue, ih hnext, List.map_cons]

/-- The results of two lists of calls one after the other. -/
theorem applyAll_append (bits : List Bool) (before after : List ReadOp) :
    ∀ {pos : Nat}, applyAll o bits pos (before ++ after) =
      applyAll o bits pos before ++ applyAll o bits (behind o bits pos before) after := by
  induction before with
  | nil => intro pos; rfl
  | cons op before ih =>
    intro pos
    rw [List.cons_append, applyAll, ih]
    rfl

/-- Every run of operations on any octets returns what it returns on their bits. It has no fault, so
nothing outside of the buffer is accessed. When a part of the run has moved past the end, all that
follows returns -1, advances apart. -/
theorem performAll_readinit (buf : Bytes) {ops : List ReadOp} (hops : ∀ op ∈ ops, op.Allowed) :
    performAll o (readinit buf) ops = some (applyAll o (o.stream buf) 0 ops) ∧
      ∀ before after, ops = before ++ after →
        8 * buf.length < behind o (o.stream buf) 0 before →
        performAll o (readinit buf) ops =
          some (applyAll o (o.stream buf) 0 before ++ after.map ReadOp.past) := by
  have hrun := (reads_readinit buf).performAll (o := o) hops
  refine ⟨hrun, fun before after hsplit hpast => ?_⟩
  rw [← BitOrder.length_stream (o := o)] at hpast
  rw [hrun, hsplit, applyAll_append, applyAll_past after hpast]

instance ReadOp.decidableAllowed : (op : ReadOp) → Decidable op.Allowed
  | .adv n => inferInstanceAs (Decidable (0 ≤ n ∧ n + 14 ≤ intMax))
  | .look _ | .look1 | .adv1 | .read _ | .read1 => .isTrue trivial

/-- An octet, with a look and a read past its end. -/
theorem performAll_readinit_octet :
    performAll .lsb (readinit [0x5a])
        ([.read 3, .adv 2, .look 4, .look 3, .read 4] ++ [.look 1, .adv 9, .read1]) =
      some ([2, 0, -1, 2, -1] ++ [-1, 0, -1]) :=
  (@performAll_readinit .lsb [0x5a] [.read 3, .adv 2, .look 4, .look 3, .read 4, .look 1, .adv 9,
    .read1] (by decide)).2 [.read 3, .adv 2, .look 4, .look 3, .read 4] [.look 1, .adv 9, .read1]
      rfl (by decide)

/-! ### Fields -/

/-- The bits of a list of fields, each a value and its width. -/
def fieldsBits (o : BitOrder) (fields : List (Nat × Nat)) : List Bool :=
  fields.flatMap fun f => o.field f.2 f.1

/-- A read of at most 32 bits, on the bits alone. -/
theorem ReadOp.apply_read (bits : List Bool) (hn : n ≤ 32) :
    (ReadOp.read n).apply o bits pos = (value (field? o bits pos n), moved bits pos n) := by
  have hvalid : ¬((n : Int) < 0 ∨ 32 < (n : Int)) := by omega
  show (if _ then _ else _) = _
  rw [if_neg hvalid, Int.toNat_natCast]

/-- Fields that stand in a string of bits are read from it. -/
theorem applyAll_fields {fields : List (Nat × Nat)} (hwidth : ∀ f ∈ fields, f.2 ≤ 32)
    (before after : List Bool) :
    applyAll o (before ++ (fieldsBits o fields ++ after)) before.length
      (fields.map fun f => .read f.2) = fields.map fun f => ((f.1 % 2 ^ f.2 : Nat) : Int) := by
  induction fields generalizing before with
  | nil => rfl
  | cons f fields ih =>
    have hf : f.2 ≤ 32 := hwidth f List.mem_cons_self
    obtain ⟨bits, hbits⟩ : ∃ bits, bits = before ++ (fieldsBits o (f :: fields) ++ after) :=
      ⟨_, rfl⟩
    have hsplit : bits = before ++ o.field f.2 f.1 ++ (fieldsBits o fields ++ after) := by
      rw [hbits, fieldsBits, List.flatMap_cons, List.append_assoc, List.append_assoc]
      rfl
    have hlength : before.length + f.2 ≤ bits.length := by
      rw [hsplit, List.length_append, List.length_append, BitOrder.length_field]
      omega
    have hvalue : field? o bits before.length f.2 = some (f.1 % 2 ^ f.2) := by
      unfold field?
      rw [if_pos hlength, ← BitOrder.number_field (o := o)]
      congr 1
      refine BitOrder.number_congr fun i hi => ?_
      rw [hsplit, List.append_assoc, List.getD_append_right _ _ _ _ (Nat.le_add_right _ _),
        Nat.add_sub_cancel_left, List.getD_append _ _ _ _ (by rwa [BitOrder.length_field]),
        BitOrder.getD_field _ hi]
    -- The first field ends where the next one begins, so what was read joins what stands before.
    have hstep : (ReadOp.read f.2).apply o bits before.length =
        (((f.1 % 2 ^ f.2 : Nat) : Int), (before ++ o.field f.2 f.1).length) := by
      rw [ReadOp.apply_read bits hf, hvalue, ReadOp.moved, if_pos hlength, List.length_append,
        BitOrder.length_field]
      rfl
    rw [← hbits, List.map_cons, applyAll, hstep, List.map_cons, hsplit,
      ih (fun f hf => hwidth f (List.mem_cons_of_mem _ hf))]

end OggpackBuffer

end TSubSpec.Ogg
