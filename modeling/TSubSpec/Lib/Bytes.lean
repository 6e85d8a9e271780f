import Mathlib.Data.List.Basic

/-!
# `TSubSpec.Lib.Bytes`: byte strings

A C++ `std::string` or `std::string_view` and a Go `string` are sequences of bytes, so the
models of both use `Bytes`. `substr?` is the bounds check of `substr`, and `ascii` writes a
literal of the source.
-/

set_option autoImplicit false

namespace TSubSpec.Lib

/-- The content of a byte string. -/
abbrev Bytes := List UInt8

/-- `==` on byte strings is lawful. -/
instance : LawfulBEq Bytes := inferInstance

/-- The bytes of an ASCII literal. -/
def ascii (s : String) : Bytes := s.toList.map fun c => UInt8.ofNat c.toNat

/-- `s.substr(pos, count)`: at most `count` bytes from `pos` on. `none` is the
`std::out_of_range` that a `pos` past the end throws. -/
def substr? (s : Bytes) (pos count : Nat) : Option Bytes :=
  if pos ≤ s.length then some ((s.drop pos).take count) else none

/-- A position inside of the string or at its end gives what stands there, as much as there is. -/
theorem substr?_of_le {s : Bytes} {pos : Nat} (h : pos ≤ s.length) (count : Nat) :
    substr? s pos count = some ((s.drop pos).take count) := if_pos h

/-- A position behind the end is an error. The library function throws an exception there. -/
theorem substr?_eq_none {s : Bytes} {pos : Nat} (h : s.length < pos) (count : Nat) :
    substr? s pos count = none := if_neg (by omega)

/-- The middle of a string between its first `i` bytes and what follows the next `n`. -/
theorem take_append_middle (s : Bytes) (i n : Nat) :
    s.take i ++ ((s.drop i).take n ++ s.drop (i + n)) = s := by
  rw [← List.drop_drop, List.take_append_drop, List.take_append_drop]

end TSubSpec.Lib
