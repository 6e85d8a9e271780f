import Mathlib.Algebra.Ring.Nat
import TSubSpec.Lib.Bytes

/-!
# `TSubSpec.Lib.Bits`: strings of bits in bytes and words

A `BitOrder` says which bit of a word comes first: the lowest (`lsb`) or the highest (`msb`).
`BitOrder.field` are the bits of a word, `BitOrder.stream` those of a byte string, and
`BitOrder.number` is the word that has given bits. What is written as a field is read back as a
number (`number_field`).
-/

set_option autoImplicit false

namespace TSubSpec.Lib

/-- Which bit of a word comes first: the lowest or the highest one. -/
inductive BitOrder
  | lsb
  | msb
  deriving DecidableEq, Repr

namespace BitOrder

variable (o : BitOrder)

/-- Where the `i`-th bit of a word of `n` bits stands in it, counted from the lowest bit. -/
def place : BitOrder → Nat → Nat → Nat
  | lsb, _, i => i
  | msb, n, i => n - 1 - i

/-- The `i`-th bit of the word `v` of `n` bits, in the order in which they are written. -/
def fieldBit (n v i : Nat) : Bool := v.testBit (o.place n i)

/-- The bits of the word `v` of `n` bits. What `v` has above them is left out. -/
def field (n v : Nat) : List Bool := (List.range n).map (o.fieldBit n v)

/-- The word of `n` bits whose bits are `f 0`, `f 1`, and so on. It reads back what `field`
writes. -/
def number (n : Nat) (f : Nat → Bool) : Nat := Nat.ofBits fun i : Fin n => f (o.place n i)

/-- The bits of a byte string, octet by octet. -/
def stream (bytes : Bytes) : List Bool := bytes.flatMap fun x => o.field 8 x.toNat

variable {o} {n i : Nat}

/-- The place of a bit is inside of its word, in both orders. -/
theorem place_lt (h : i < n) : o.place n i < n := by
  cases o with
  | lsb => exact h
  | msb => exact Nat.lt_of_le_of_lt (Nat.sub_le _ _) (by omega)

/-- The places are turned round twice, or not at all: the place of a place is the index itself. -/
theorem place_place (h : i < n) : o.place n (o.place n i) = i := by
  cases o with
  | lsb => rfl
  | msb =>
    show n - 1 - (n - 1 - i) = i
    omega

/-- A field has as many bits as it is wide. -/
@[simp] theorem length_field (v : Nat) : (o.field n v).length = n := by
  simp [field]

/-- The bits of a field, one by one. The index is the place in the stream, not in the word. -/
theorem getElem?_field (v : Nat) (h : i < n) : (o.field n v)[i]? = some (o.fieldBit n v i) := by
  simp [field, h]

/-- The same as `getElem?_field`, for a stream that is read with a default. -/
theorem getD_field (v : Nat) (h : i < n) : (o.field n v).getD i false = o.fieldBit n v i := by
  simp [List.getD, getElem?_field v h]

/-- A number that is made of `n` bits is below `2 ^ n`. -/
theorem number_lt (f : Nat → Bool) : o.number n f < 2 ^ n := Nat.ofBits_lt_two_pow _

/-- The bits of a number that is made of bits: they are those, each at its place, and there are no
others. -/
theorem testBit_number (f : Nat → Bool) (i : Nat) :
    (o.number n f).testBit i = (decide (i < n) && f (o.place n i)) := by
  rw [number, Nat.testBit_ofBits]
  split
  · next hi => rw [decide_eq_true hi, Bool.true_and]
  · next hi => rw [decide_eq_false hi, Bool.false_and]

/-- A number depends on its bits only, and on no others than the first `n`. -/
theorem number_congr {f g : Nat → Bool} (h : ∀ i < n, f i = g i) :
    o.number n f = o.number n g := by
  unfold number
  congr 1
  funext i
  exact h _ (place_lt i.isLt)

/-- A word has its bits and no others. -/
theorem eq_number {v : Nat} {f : Nat → Bool} (hv : v < 2 ^ n)
    (h : ∀ i < n, o.fieldBit n v i = f i) : v = o.number n f := by
  refine Nat.eq_of_testBit_eq fun i => ?_
  rw [number, Nat.testBit_ofBits]
  split
  · next hi =>
    rw [← h _ (place_lt hi), fieldBit, place_place hi]
  · next hi => exact Nat.testBit_lt_two_pow (Nat.lt_of_lt_of_le hv
      (Nat.pow_le_pow_right Nat.two_pos (Nat.not_lt.mp hi)))

/-- The bits of a word are those of what is left of it in `n` bits. -/
theorem fieldBit_mod (v : Nat) (h : i < n) : o.fieldBit n (v % 2 ^ n) i = o.fieldBit n v i := by
  simp [fieldBit, Nat.testBit_mod_two_pow, place_lt h]

/-- What is written as a field is read back as a number. -/
theorem number_field (v : Nat) : o.number n (o.fieldBit n v) = v % 2 ^ n :=
  (eq_number (Nat.mod_lt _ (Nat.two_pow_pos n)) fun _ hi => fieldBit_mod v hi).symm

/-- A number of one bit is that bit. Both orders agree on it. -/
theorem number_one (f : Nat → Bool) : o.number 1 f = (f 0).toNat := by
  have hplace : o.place 1 0 = 0 := by cases o <;> rfl
  simp [number, Nat.ofBits_succ, hplace]

/-- No octets give no bits. -/
@[simp] theorem stream_nil : o.stream [] = [] := rfl

/-- The bits of a string of octets are those of the first octet, and then those of the others. -/
@[simp] theorem stream_cons (x : UInt8) (bytes : Bytes) :
    o.stream (x :: bytes) = o.field 8 x.toNat ++ o.stream bytes := rfl

/-- An octet has eight bits. -/
@[simp] theorem length_stream (bytes : Bytes) : (o.stream bytes).length = 8 * bytes.length := by
  induction bytes with
  | nil => rfl
  | cons x bytes ih =>
    rw [stream_cons, List.length_append, length_field, ih, List.length_cons]
    omega

/-- A bit of a string of octets is a bit of one octet. The induction is on the octets: those in
front of the bit are taken off one by one. -/
theorem getElem?_stream : ∀ (bytes : Bytes) (k : Nat), i < 8 →
    (o.stream bytes)[8 * k + i]? = bytes[k]?.map fun x => o.fieldBit 8 x.toNat i
  | [], k, _ => by simp
  | x :: bytes, 0, h => by
    rw [stream_cons, List.getElem?_append_left (by simpa using h)]
    simpa using getElem?_field _ h
  | x :: bytes, k + 1, h => by
    rw [stream_cons, List.getElem?_append_right (by rw [length_field]; omega), length_field,
      show 8 * (k + 1) + i - 8 = 8 * k + i by omega, getElem?_stream bytes k h,
      List.getElem?_cons_succ]

end BitOrder

end TSubSpec.Lib
