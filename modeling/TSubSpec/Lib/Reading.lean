import Mathlib.Algebra.Ring.Nat
import Mathlib.Data.List.Basic
import TSubSpec.Lib.Bytes

/-!
# `TSubSpec.Lib.Reading`: programs that read a byte string from left to right

A `Reading` program moves an offset over the bytes of a `Buffer` and may fail. `Consumes x bs a`
is its specification: wherever the bytes `bs` stand in a buffer, from their start `x` returns `a`
and moves to their end. Its rules follow the program: one for each way to build it, and
`Consumes.repeatM` for a counted loop over records of any layout.

`littleEndian` and `encodeLE` are the two directions of a little-endian number.
-/

set_option autoImplicit false

namespace TSubSpec.Lib

/-- A byte string and how much of it was read. -/
structure Buffer where
  content : Bytes
  offset : Nat
  deriving DecidableEq, Repr

/-- Programs that read a buffer and may fail. -/
abbrev Reading (ε : Type) := StateT Buffer (Except ε)

section

variable {ε α β σ : Type}

namespace Reading

/-- The next `n` bytes. Nothing is read when there are fewer. -/
def readBytes (n : Nat) : Reading ε (Option Bytes) := do
  let b ← get
  if b.offset + n ≤ b.content.length then
    set { b with offset := b.offset + n }
    return some ((b.content.drop b.offset).take n)
  else return none

/-- `for (i = 0; i < n; i++)` over a state. -/
def repeatM (body : σ → Reading ε σ) : Nat → σ → Reading ε σ
  | 0, s => pure s
  | n + 1, s => do
    let s ← body s
    repeatM body n s

end Reading

open Reading

/-- From the start of the bytes `bs`, the program `x` returns `a` and stops at their end. -/
def Consumes (x : Reading ε α) (bs : Bytes) (a : α) : Prop :=
  ∀ before after : Bytes, x.run ⟨before ++ (bs ++ after), before.length⟩
    = .ok (a, ⟨before ++ (bs ++ after), before.length + bs.length⟩)

namespace Consumes

variable {x : Reading ε α} {f : α → Reading ε β} {bs cs : Bytes} {a : α} {b : β}

/-- To return a value reads nothing. -/
theorem pure (a : α) : Consumes (ε := ε) (Pure.pure a) [] a := fun _ _ => rfl

/-- A sequence consumes the bytes of its parts, one after the other. -/
theorem bind (hx : Consumes x bs a) (hf : Consumes (f a) cs b) :
    Consumes (x >>= f) (bs ++ cs) b := by
  intro before after
  have h₁ := hx before (cs ++ after)
  have h₂ := hf (before ++ bs) after
  simp only [List.append_assoc, List.length_append] at h₁ h₂ ⊢
  rw [StateT.run_bind, h₁]
  show (f a).run _ = _
  rw [h₂, Nat.add_assoc]

/-- The rest of a program reads nothing. -/
theorem bind_last (hx : Consumes x bs a) (hf : Consumes (f a) [] b) : Consumes (x >>= f) bs b := by
  have h := hx.bind hf
  rwa [List.append_nil] at h

/-- A computation that succeeds and reads nothing. -/
theorem lift {y : Except ε α} (hy : y = .ok a) : Consumes (StateT.lift y) [] a := by
  subst hy
  exact fun _ _ => rfl

/-- As many bytes are read as are asked for, if they are there. -/
theorem readBytes (bs : Bytes) :
    Consumes (ε := ε) (Reading.readBytes bs.length) bs (some bs) := by
  intro before after
  have hle : before.length + bs.length ≤ (before ++ (bs ++ after)).length := by
    simp only [List.length_append]
    omega
  show (if _ ≤ _ then _ else _ : Reading ε (Option Bytes)).run _ = _
  rw [if_pos hle, List.drop_left]
  simp only [List.take_left]
  rfl

/-- A program that consumes the whole content stops at its end. -/
theorem run (hx : Consumes x bs a) : x.run ⟨bs, 0⟩ = .ok (a, ⟨bs, bs.length⟩) := by
  simpa using hx [] []

end Consumes

/-! ### Records -/

/-- The bytes of a list of records, each in the layout `R`. -/
inductive Records (R : α → Bytes → Prop) : List α → Bytes → Prop
  | nil : Records R [] []
  | cons {r : α} {rs : List α} {bs cs : Bytes} (head : R r bs) (tail : Records R rs cs) :
      Records R (r :: rs) (bs ++ cs)

/-- A counted loop consumes the records when its body consumes any one of them, in any state, and
adds it to the state by `push`. The induction is on the records. -/
theorem Consumes.repeatM {R : α → Bytes → Prop} {body : σ → Reading ε σ} {push : σ → α → σ}
    {rs : List α} {bs : Bytes} (h : Records R rs bs)
    (hbody : ∀ r ∈ rs, ∀ bs s, R r bs → Consumes (body s) bs (push s r)) (s : σ) :
    Consumes (Reading.repeatM body rs.length s) bs (rs.foldl push s) := by
  induction h generalizing s with
  | nil => exact Consumes.pure s
  | @cons r rs bs cs head tail ih =>
    have hr := hbody r List.mem_cons_self bs s head
    exact hr.bind (ih (fun r hr => hbody r (List.mem_cons_of_mem _ hr)) (push s r))

end

/-! ### Numbers -/

/-- The number whose digits to base 256 are the bytes, the lowest first. -/
def littleEndian : Bytes → Nat
  | [] => 0
  | b :: bs => b.toNat + 256 * littleEndian bs

/-- The `k` lowest digits of `n` to base 256, the lowest first. -/
def encodeLE : Nat → Nat → Bytes
  | 0, _ => []
  | k + 1, n => UInt8.ofNat n :: encodeLE k (n / 256)

/-- A number of `k` bytes has `k` bytes, however large it is. -/
@[simp] theorem length_encodeLE (k n : Nat) : (encodeLE k n).length = k := by
  induction k generalizing n with
  | zero => rfl
  | succ k ih => rw [encodeLE, List.length_cons, ih]

/-- A number that fits is read back. -/
theorem littleEndian_encodeLE {k n : Nat} (h : n < 256 ^ k) : littleEndian (encodeLE k n) = n := by
  induction k generalizing n with
  | zero =>
    rw [Nat.pow_zero] at h
    simp only [encodeLE, littleEndian]
    omega
  | succ k ih =>
    have hdiv : n / 256 < 256 ^ k := by
      rw [Nat.pow_succ] at h
      exact Nat.div_lt_of_lt_mul (by omega)
    rw [encodeLE, littleEndian, ih hdiv, UInt8.toNat_ofNat']
    omega

/-- Three bytes, joined by shifts. -/
theorem or_shiftLeft_eq {a b c : Nat} (ha : a < 256) (hb : b < 256) :
    a ||| (b <<< 8) ||| (c <<< 16) = a + 256 * (b + 256 * c) := by
  have hab : a ||| (b <<< 8) = a + 256 * b := by
    rw [Nat.or_comm, ← Nat.shiftLeft_add_eq_or_of_lt (by simpa using ha), Nat.shiftLeft_eq]
    omega
  rw [hab, Nat.or_comm, ← Nat.shiftLeft_add_eq_or_of_lt (by omega), Nat.shiftLeft_eq]
  omega

end TSubSpec.Lib
