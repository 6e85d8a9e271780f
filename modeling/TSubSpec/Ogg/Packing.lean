import Mathlib.Data.List.GetD
import Mathlib.Tactic.Convert
import TSubSpec.Lib.Machine
import TSubSpec.Ogg.Bitwise

/-!
# `TSubSpec.Ogg.Packing`: a buffer holds the bits that were written to it

`Packed o b bits` says that the buffer `b` holds the string `bits` in the order `o`. Every
operation on it is described by what it does to the string: a write appends a field, an alignment
appends zeros, a copy appends the first bits of its source. An operation whose allocation is
refused leaves a cleared buffer, and nothing brings it back.

`holds_of_steps` is the result for every run of operations. No operation of the run loads an octet
that was never stored, or leaves the buffer.
-/

set_option autoImplicit false

namespace TSubSpec.Ogg

open TSubSpec.Lib

namespace OggpackBuffer

section

/-! ### Octets -/

variable {o : BitOrder} {value bits endbit k j w : Nat}

/-- The entry of the mask table for a width keeps that many low bits. -/
theorem mask_eq (h : bits ≤ 32) : mask.getD bits 0 = 2 ^ bits - 1 := by
  have hall : ∀ n < 33, mask.getD n 0 = 2 ^ n - 1 := by decide
  exact hall bits (Nat.lt_succ_of_le h)

/-- In the low order a value is masked to its width before it is written. -/
theorem testBit_aligned_lsb (h : bits ≤ 32) (i : Nat) :
    (aligned .lsb value bits).testBit i = (value.testBit i && decide (i < bits)) := by
  rw [aligned, mask_eq h, Nat.testBit_and, Nat.testBit_two_pow_sub_one]

/-- In the high order a value is moved to the top of its 32 bits, which drops what is above its
width. -/
theorem testBit_aligned_msb (h : bits ≤ 32) (i : Nat) :
    (aligned .msb value bits).testBit i =
      (decide (32 - bits ≤ i ∧ i < 32) && value.testBit (i - (32 - bits))) := by
  rw [aligned, mask_eq h, Nat.testBit_shiftLeft, Nat.testBit_and, Nat.testBit_two_pow_sub_one,
    Bool.eq_iff_iff]
  simp only [Bool.and_eq_true, decide_eq_true_iff]
  constructor
  · intro ⟨hge, hv, hlt⟩
    exact ⟨⟨hge, by omega⟩, hv⟩
  · intro ⟨⟨hge, hlt⟩, hv⟩
    exact ⟨hge, hv, by omega⟩

/-- The bits of an octet that is written in the low order: those of the value, moved by the bits
that are already in the first octet. -/
theorem testBit_octet_lsb (hendbit : endbit < 8) (hk : k ≤ 4) (hw : w < 2 ^ 32) :
    (octet .lsb w endbit k).testBit j =
      (decide (endbit ≤ 8 * k + j) && w.testBit (8 * k + j - endbit)) := by
  have hshift : ∀ m, endbit ≤ m → (w >>> (m - endbit)).testBit j =
      (decide (endbit ≤ m + j) && w.testBit (m + j - endbit)) := by
    intro m hm
    rw [Nat.testBit_shiftRight, decide_eq_true (Nat.le_add_right_of_le hm), Bool.true_and]
    congr 1
    omega
  have hk' : k = 0 ∨ k = 1 ∨ k = 2 ∨ k = 3 ∨ k = 4 := by omega
  rcases hk' with rfl | rfl | rfl | rfl | rfl
  · simp [octet, Nat.testBit_shiftLeft]
  · exact hshift 8 (by omega)
  · exact hshift 16 (by omega)
  · exact hshift 24 (by omega)
  · show (if endbit = 0 then 0 else w >>> (32 - endbit)).testBit j = _
    split
    · next h =>
      have : w.testBit (8 * 4 + j - endbit) = false := Nat.testBit_lt_two_pow
        (Nat.lt_of_lt_of_le hw (Nat.pow_le_pow_right Nat.two_pos (by omega)))
      rw [this, Nat.zero_testBit, Bool.and_false]
    · exact hshift 32 (by omega)

/-- The bits of an octet that is written in the high order, counted from the top. -/
theorem testBit_octet_msb (hendbit : endbit < 8) (hk : k ≤ 4) (hj : j < 8) :
    (octet .msb w endbit k).testBit (7 - j) =
      (decide (8 * k + j < endbit + 32) && w.testBit (31 + endbit - (8 * k + j))) := by
  have hk' : k ≤ 3 ∨ k = 4 := by omega
  rcases hk' with hk | rfl
  · have hoctet : octet .msb w endbit k = w >>> (24 - 8 * k + endbit) := by
      have hk' : k = 0 ∨ k = 1 ∨ k = 2 ∨ k = 3 := by omega
      rcases hk' with rfl | rfl | rfl | rfl <;> rfl
    rw [hoctet, Nat.testBit_shiftRight, decide_eq_true (by omega), Bool.true_and]
    congr 1
    omega
  · show (if endbit = 0 then 0 else w <<< (8 - endbit)).testBit (7 - j) = _
    split
    · next h =>
      have hlt : ¬8 * 4 + j < endbit + 32 := by omega
      rw [Nat.zero_testBit, decide_eq_false hlt, Bool.false_and]
    · rw [Nat.testBit_shiftLeft]
      have h : 7 - j ≥ 8 - endbit ↔ 8 * 4 + j < endbit + 32 := by omega
      rw [decide_eq_decide.mpr h]
      by_cases hlt : 8 * 4 + j < endbit + 32
      · congr 2
        omega
      · simp [hlt]

/-- The masked value has 32 bits, so its octets hold all of it. -/
theorem aligned_lsb_lt (h : bits ≤ 32) : aligned .lsb value bits < 2 ^ 32 := by
  rw [aligned, mask_eq h]
  refine Nat.lt_of_le_of_lt Nat.and_le_right ?_
  have := Nat.pow_le_pow_right Nat.two_pos h
  have := Nat.two_pow_pos bits
  omega

/-- Both orders in one: bit `j` of octet `k` is the bit of the field that belongs there, and zero
beside the field. The five octets of a write are this with the five values of `k`. -/
theorem fieldBit_octet (hbits : bits ≤ 32) (hendbit : endbit < 8) (hk : k ≤ 4) (hj : j < 8) :
    o.fieldBit 8 (UInt8.ofNat (octet o (aligned o value bits) endbit k)).toNat j =
      (decide (endbit ≤ 8 * k + j ∧ 8 * k + j < endbit + bits) &&
        o.fieldBit bits value (8 * k + j - endbit)) := by
  rw [UInt8.toNat_ofNat', o.fieldBit_mod _ hj, Bool.eq_iff_iff, Bool.and_eq_true,
    decide_eq_true_iff]
  cases o with
  | lsb =>
    show (octet .lsb _ endbit k).testBit j = true ↔ _ ∧ value.testBit (8 * k + j - endbit) = true
    rw [testBit_octet_lsb hendbit hk (aligned_lsb_lt hbits), testBit_aligned_lsb hbits]
    simp only [Bool.and_eq_true, decide_eq_true_iff]
    constructor
    · intro ⟨h, hv, hlt⟩
      exact ⟨⟨h, by omega⟩, hv⟩
    · intro ⟨⟨h, hlt⟩, hv⟩
      exact ⟨h, hv, by omega⟩
  -- From the high end the places count the other way round.
  | msb =>
    show (octet .msb _ endbit k).testBit (7 - j) = true ↔
      _ ∧ value.testBit (bits - 1 - (8 * k + j - endbit)) = true
    rw [testBit_octet_msb hendbit hk hj, testBit_aligned_msb hbits]
    simp only [Bool.and_eq_true, decide_eq_true_iff]
    constructor
    · intro ⟨h, ⟨hge, hlt⟩, hv⟩
      refine ⟨⟨by omega, by omega⟩, ?_⟩
      convert hv using 2
      omega
    · intro ⟨⟨h, hlt⟩, hv⟩
      refine ⟨by omega, ⟨by omega, by omega⟩, ?_⟩
      convert hv using 2
      omega

end

/-! ### The state of a buffer -/

/-- The buffer holds the bits, with zeros behind them in the octet that is filled next. The bits of
that octet are only added by an or, so the zeros are needed. -/
structure Packed (o : BitOrder) (b : OggpackBuffer) (bits : List Bool) : Prop where
  ptr : b.ptr = some b.endbyte
  storage : b.buffer.length = b.storage
  room : b.endbyte < b.storage
  endbit_lt : b.endbit < 8
  length : bits.length = 8 * b.endbyte + b.endbit
  cells : ∀ k ≤ b.endbyte, ∃ x, b.buffer[k]? = some (some x) ∧
    ∀ j < 8, o.fieldBit 8 x.toNat j = bits.getD (8 * k + j) false

variable {o : BitOrder} {b : OggpackBuffer} {bits : List Bool} {n p k : Nat} {x : UInt8}

/-- A load inside the buffer gives the octet that is there, once it has been stored. -/
theorem load_eq (hp : b.ptr = some p) (hx : b.buffer[p + k]? = some (some x)) :
    b.load k = some x := by
  simp [load, hp, hx]

/-- A store inside the buffer changes one cell. -/
theorem store_eq (hp : b.ptr = some p) (hk : p + k < b.buffer.length) :
    b.store k x = some { b with buffer := b.buffer.set (p + k) (some x) } := by
  simp [store, hp, hk]

/-- The stores of a list of octets, as far as there are bits. -/
theorem foldlM_store {w endbit total : Nat} (hp : b.ptr = some p)
    (hroom : p + 4 < b.buffer.length) :
    ∀ {ks : List Nat}, (∀ k ∈ ks, k ≤ 4) → ∃ buffer,
      ks.foldlM (fun b k =>
        if 8 * k ≤ total then b.store k (UInt8.ofNat (octet o w endbit k)) else some b) b =
          some { b with buffer := buffer } ∧
      buffer.length = b.buffer.length ∧
      ∀ i, buffer[i]? = if ∃ k ∈ ks, i = p + k ∧ 8 * k ≤ total then
        some (some (UInt8.ofNat (octet o w endbit (i - p)))) else b.buffer[i]? := by
  intro ks
  -- By induction on the octets: a store changes one cell, and the later ones change others.
  induction ks generalizing b with
  | nil => intro _; exact ⟨b.buffer, rfl, rfl, fun i => by simp⟩
  | cons k ks ih =>
    intro hks
    have hk : p + k < b.buffer.length := by
      have := hks k List.mem_cons_self
      omega
    have hks' : ∀ k ∈ ks, k ≤ 4 := fun k hk => hks k (List.mem_cons_of_mem _ hk)
    rw [List.foldlM_cons]
    split
    · next htotal =>
      rw [store_eq hp hk, Option.bind_eq_bind, Option.bind_some]
      obtain ⟨buffer, hfold, hlength, hcells⟩ := @ih { b with
        buffer := b.buffer.set (p + k) (some (UInt8.ofNat (octet o w endbit k))) } hp
        (by rwa [List.length_set]) hks'
      refine ⟨buffer, hfold, by rw [hlength, List.length_set], fun i => ?_⟩
      rw [hcells, List.getElem?_set]
      -- A later store decides over an earlier one in the same cell.
      by_cases hi : ∃ k ∈ ks, i = p + k ∧ 8 * k ≤ total
      · rw [if_pos hi, if_pos]
        obtain ⟨k', hk', h⟩ := hi
        exact ⟨k', List.mem_cons_of_mem _ hk', h⟩
      · rw [if_neg hi]
        by_cases hik : p + k = i
        · rw [if_pos hik, if_pos hk, if_pos ⟨k, List.mem_cons_self, hik.symm, htotal⟩, ← hik,
            Nat.add_sub_cancel_left]
        · rw [if_neg hik, if_neg]
          rintro ⟨k', hk', rfl, h⟩
          rcases List.mem_cons.mp hk' with rfl | hk'
          · exact hik rfl
          · exact hi ⟨k', hk', rfl, h⟩
    · -- The bits of the word do not come so far, and nothing is stored.
      next htotal =>
      obtain ⟨buffer, hfold, hlength, hcells⟩ := ih hp hroom hks'
      refine ⟨buffer, hfold, hlength, fun i => ?_⟩
      rw [hcells]
      congr 1
      refine propext ⟨?_, ?_⟩
      · rintro ⟨k', hk', h⟩
        exact ⟨k', List.mem_cons_of_mem _ hk', h⟩
      · rintro ⟨k', hk', h, h'⟩
        rcases List.mem_cons.mp hk' with rfl | hk'
        · exact absurd h' htotal
        · exact ⟨k', hk', h, h'⟩

/-- The stores of the nested tests. -/
theorem storeOctets_spec (o : BitOrder) (w endbit total : Nat) (hp : b.ptr = some p)
    (hroom : p + 4 < b.buffer.length) :
    ∃ buffer, b.storeOctets o w endbit total = some { b with buffer := buffer } ∧
      buffer.length = b.buffer.length ∧
      ∀ i, buffer[i]? = if p < i ∧ i ≤ p + 4 ∧ 8 * (i - p) ≤ total then
        some (some (UInt8.ofNat (octet o w endbit (i - p)))) else b.buffer[i]? := by
  obtain ⟨buffer, hfold, hlength, hcells⟩ :=
    @foldlM_store o b p w endbit total hp hroom [1, 2, 3, 4] (by decide)
  refine ⟨buffer, hfold, hlength, fun i => ?_⟩
  rw [hcells]
  congr 1
  refine propext ⟨?_, fun ⟨h, hle, htotal⟩ => ⟨i - p, ?_, by omega, htotal⟩⟩
  · rintro ⟨k, hk, rfl, htotal⟩
    have hk' : 1 ≤ k ∧ k ≤ 4 := by
      simp only [List.mem_cons, List.not_mem_nil, or_false] at hk
      omega
    rw [Nat.add_sub_cancel_left]
    omega
  · simp only [List.mem_cons, List.not_mem_nil, or_false]
    omega

/-- The bits behind a write: those before it, then those of the field, then zeros. -/
theorem getD_append_field (bits : List Bool) (value i : Nat) :
    (bits ++ o.field n value).getD i false =
      if i < bits.length then bits.getD i false
      else decide (i < bits.length + n) && o.fieldBit n value (i - bits.length) := by
  split
  · next h => rw [List.getD_append _ _ _ _ h]
  · next h =>
    rw [List.getD_append_right _ _ _ _ (Nat.not_lt.mp h)]
    by_cases hi : i < bits.length + n
    · rw [BitOrder.getD_field _ (by omega), decide_eq_true hi, Bool.true_and]
    · rw [List.getD_eq_default _ _ (by rw [BitOrder.length_field]; omega), decide_eq_false hi,
        Bool.false_and]

/-- A write appends the bits of the word, where the buffer has room for five octets. -/
theorem Packed.put {value : Nat} (h : Packed o b bits) (hn : n ≤ 32)
    (hroom : b.endbyte + 4 < b.storage) :
    ∃ b', b.put o value n = some b' ∧ Packed o b' (bits ++ o.field n value) ∧
      b'.storage = b.storage := by
  obtain ⟨x, hx, hxbits⟩ := h.cells b.endbyte (Nat.le_refl _)
  have hendbit := h.endbit_lt
  have hlength := h.length
  have hstorage := h.storage
  have hroom' : b.endbyte + 0 < b.buffer.length := by omega
  obtain ⟨first, hfirst⟩ : ∃ first, first = b.buffer.set (b.endbyte + 0)
    (some (x ||| UInt8.ofNat (octet o (aligned o value n) b.endbit 0))) := ⟨_, rfl⟩
  obtain ⟨buffer, hstores, hbuffer, hcells⟩ :=
    @storeOctets_spec { b with buffer := first } b.endbyte o (aligned o value n) b.endbit
      (n + b.endbit) h.ptr (by rw [hfirst, List.length_set]; omega)
  refine ⟨advance { b with buffer := buffer } (n + b.endbit), ?_, ?_, rfl⟩
  · unfold OggpackBuffer.put
    have hload : b.load 0 = some x := @load_eq b b.endbyte 0 x h.ptr hx
    simp only [hload, store_eq h.ptr hroom', ← hfirst, Option.bind_eq_bind,
      Option.bind_some, hstores]
    rfl
  · rw [hfirst, List.length_set] at hbuffer
    refine ⟨?_, ?_, ?_, ?_, ?_, ?_⟩
    · show b.ptr.map _ = some (b.endbyte + _)
      rw [h.ptr]
      rfl
    · exact hbuffer.trans h.storage
    · show b.endbyte + (n + b.endbit) / 8 < b.storage
      omega
    · exact Nat.mod_lt _ (by omega)
    · show (bits ++ o.field n value).length =
        8 * (b.endbyte + (n + b.endbit) / 8) + (n + b.endbit) % 8
      rw [List.length_append, BitOrder.length_field]
      omega
    · intro k hk
      have hk : k ≤ b.endbyte + (n + b.endbit) / 8 := hk
      show ∃ x, buffer[k]? = some (some x) ∧ _
      rcases Nat.lt_trichotomy k b.endbyte with hlt | rfl | hgt
      · -- An octet that was full before.
        obtain ⟨y, hy, hybits⟩ := h.cells k (Nat.le_of_lt hlt)
        refine ⟨y, ?_, fun j hj => ?_⟩
        · rw [hcells, if_neg (by omega), hfirst, List.getElem?_set_ne (by omega), hy]
        · rw [hybits j hj, getD_append_field, if_pos (by omega)]
      · -- The octet that was filled in part.
        refine ⟨x ||| UInt8.ofNat (octet o (aligned o value n) b.endbit 0), ?_, fun j hj => ?_⟩
        · rw [hcells, if_neg (by omega), hfirst]
          exact List.getElem?_set_self (by omega)
        · have hor : o.fieldBit 8 (x ||| UInt8.ofNat (octet o (aligned o value n) b.endbit 0)).toNat j
              = (o.fieldBit 8 x.toNat j ||
                o.fieldBit 8 (UInt8.ofNat (octet o (aligned o value n) b.endbit 0)).toNat j) := by
            rw [UInt8.toNat_or]
            exact Nat.testBit_or _ _ _
          rw [hor, hxbits j hj, fieldBit_octet hn hendbit (Nat.zero_le 4) hj, getD_append_field]
          by_cases hlt : 8 * b.endbyte + j < bits.length
          · have : ¬(b.endbit ≤ 8 * 0 + j ∧ 8 * 0 + j < b.endbit + n) := by omega
            rw [if_pos hlt, decide_eq_false this, Bool.false_and, Bool.or_false]
          · rw [if_neg hlt, List.getD_eq_default _ _ (Nat.not_lt.mp hlt), Bool.false_or]
            have hj' : 8 * 0 + j - b.endbit = 8 * b.endbyte + j - bits.length := by omega
            rw [hj']
            congr 1
            exact decide_eq_decide.mpr (by omega)
      · -- An octet that is new.
        refine ⟨UInt8.ofNat (octet o (aligned o value n) b.endbit (k - b.endbyte)), ?_,
          fun j hj => ?_⟩
        · rw [hcells, if_pos (by omega)]
        · rw [fieldBit_octet hn hendbit (by omega) hj, getD_append_field, if_neg (by omega)]
          have hj' : 8 * (k - b.endbyte) + j - b.endbit = 8 * k + j - bits.length := by omega
          rw [hj']
          congr 1
          exact decide_eq_decide.mpr (by omega)

/-! ### Growth -/

/-- All allocations up to the limit succeed, and the limit fits into a `long`. No write asks for
more than that. -/
def Granted (alloc : Nat → Bool) (limit : Nat) : Prop :=
  limit ≤ longMax ∧ ∀ size ≤ limit, alloc size = true

/-- The operation has no fault, and leaves a buffer that holds the bits. It leaves a cleared buffer
only if an allocation up to the limit was refused. -/
def Leaves (o : BitOrder) (alloc : Nat → Bool) (limit : Nat) (result : Option OggpackBuffer)
    (bits : List Bool) : Prop :=
  ∃ b, result = some b ∧
    (Packed o b bits ∧ b.storage ≤ limit ∨ b = writeclear ∧ ¬Granted alloc limit)

variable {alloc : Nat → Bool} {limit limit' : Nat}

/-- An allocator that grants all sizes up to a limit grants those up to a smaller one. -/
theorem Granted.mono (h : Granted alloc limit) (hle : limit' ≤ limit) : Granted alloc limit' :=
  ⟨Nat.le_trans hle h.1, fun size hsize => h.2 size (Nat.le_trans hsize hle)⟩

/-- What a call leaves with a small limit it also leaves with a larger one. -/
theorem Leaves.mono {result : Option OggpackBuffer} (h : Leaves o alloc limit result bits)
    (hle : limit ≤ limit') : Leaves o alloc limit' result bits := by
  obtain ⟨b, hb, ⟨hpacked, hstorage⟩ | ⟨hclear, hrefused⟩⟩ := h
  · exact ⟨b, hb, .inl ⟨hpacked, Nat.le_trans hstorage hle⟩⟩
  · exact ⟨b, hb, .inr ⟨hclear, fun hgranted => hrefused (hgranted.mono hle)⟩⟩

/-- A larger buffer holds the same bits: the new cells are behind the last octet. -/
theorem Packed.realloc {size : Nat} (h : Packed o b bits) (hsize : b.storage ≤ size) :
    Packed o (b.realloc size) bits where
  ptr := rfl
  storage := by
    have := h.storage
    show (b.buffer ++ List.replicate _ none).length = size
    rw [List.length_append, List.length_replicate]
    omega
  room := Nat.lt_of_lt_of_le h.room hsize
  endbit_lt := h.endbit_lt
  length := h.length
  cells := by
    intro k hk
    obtain ⟨x, hx, hbits⟩ := h.cells k hk
    refine ⟨x, ?_, hbits⟩
    have hlt : k < b.buffer.length := by
      rw [h.storage]
      exact Nat.lt_of_le_of_lt hk h.room
    exact (List.getElem?_append_left hlt).trans hx

/-- A write appends the bits of the word. -/
theorem Packed.write (h : Packed o b bits) (alloc : Nat → Bool) (value : Nat) (hn : n ≤ 32) :
    Leaves o alloc (b.storage + bufferIncrement) (b.write o alloc value n)
      (bits ++ o.field n value) := by
  have hwidth : ¬((n : Int) < 0 ∨ 32 < (n : Int)) := by omega
  have hroom := h.room
  unfold OggpackBuffer.write
  rw [if_neg hwidth]
  unfold grow
  by_cases hlt : b.endbyte + 4 < b.storage
  · rw [if_pos hlt]
    obtain ⟨b', hb', hpacked, hstorage⟩ := h.put hn hlt
    exact ⟨b', hb', .inl ⟨hpacked, by omega⟩⟩
  · -- There is no room for four octets more: the buffer grows, or it is cleared.
    rw [if_neg hlt, if_neg (by rw [h.ptr]; exact Option.some_ne_none _)]
    by_cases hmax : longMax - bufferIncrement < b.storage
    · rw [if_pos hmax]
      refine ⟨_, rfl, .inr ⟨rfl, fun hgranted => ?_⟩⟩
      have := hgranted.1
      omega
    · rw [if_neg hmax]
      by_cases halloc : alloc (b.storage + bufferIncrement) = true
      · rw [if_pos halloc]
        have hgrown : Packed o (b.realloc (b.storage + bufferIncrement)) bits :=
          h.realloc (Nat.le_add_right _ _)
        obtain ⟨b', hb', hpacked, hstorage⟩ := hgrown.put hn (by
          show b.endbyte + 4 < b.storage + bufferIncrement
          unfold bufferIncrement
          omega)
        exact ⟨b', hb', .inl ⟨hpacked, Nat.le_of_eq hstorage⟩⟩
      · rw [if_neg halloc]
        exact ⟨_, rfl, .inr ⟨rfl, fun hgranted => halloc (hgranted.2 _ (Nat.le_refl _))⟩⟩

/-- Nothing is written to a cleared buffer. -/
@[simp] theorem write_writeclear (value : Nat) (bits : Int) :
    writeclear.write o alloc value bits = some writeclear := by
  unfold OggpackBuffer.write
  split
  · rfl
  · rfl

/-- An alignment appends zeros up to the next octet. -/
theorem Packed.writealign (h : Packed o b bits) (alloc : Nat → Bool) :
    Leaves o alloc (b.storage + bufferIncrement) (b.writealign o alloc)
      (bits ++ List.replicate ((8 - bits.length % 8) % 8) false) := by
  have hlength := h.length
  have hendbit := h.endbit_lt
  unfold OggpackBuffer.writealign
  by_cases hzero : b.endbit = 0
  · have hpad : (8 - bits.length % 8) % 8 = 0 := by omega
    rw [if_neg (by omega), hpad, List.replicate_zero, List.append_nil]
    exact ⟨b, rfl, .inl ⟨h, by omega⟩⟩
  · have hpad : (8 - bits.length % 8) % 8 = 8 - b.endbit := by omega
    have hfield : o.field (8 - b.endbit) 0 = List.replicate (8 - b.endbit) false := by
      refine List.eq_replicate_iff.mpr ⟨BitOrder.length_field 0, fun x hx => ?_⟩
      obtain ⟨i, -, rfl⟩ := List.mem_map.mp hx
      exact Nat.zero_testBit _
    rw [if_pos (by omega), hpad, ← hfield]
    exact h.write alloc 0 (by omega)

/-! ### Copies -/

/-- One turn of the loop of `writecopy` that writes whole octets. -/
theorem writeOctets_cons (x : UInt8) (source : Bytes) :
    b.writeOctets o alloc (x :: source) =
      (b.write o alloc x.toNat 8).bind fun b => b.writeOctets o alloc source := rfl

/-- Nothing is copied to a cleared buffer. -/
theorem writeOctets_writeclear (source : Bytes) :
    writeOctets o alloc writeclear source = some writeclear := by
  induction source with
  | nil => rfl
  | cons x source ih =>
    rw [writeOctets_cons, write_writeclear, Option.bind_some, ih]

/-- The loop over the octets of a source. The induction is on the source. -/
theorem Packed.writeOctets (h : Packed o b bits) (alloc : Nat → Bool) (source : Bytes) :
    Leaves o alloc (b.storage + bufferIncrement * source.length) (b.writeOctets o alloc source)
      (bits ++ o.stream source) := by
  induction source generalizing b bits with
  | nil =>
    rw [BitOrder.stream_nil, List.append_nil]
    exact ⟨b, rfl, .inl ⟨h, Nat.le_add_right _ _⟩⟩
  | cons x source ih =>
    have hwrite : Leaves o alloc _ (b.write o alloc x.toNat 8) _ :=
      h.write alloc x.toNat (n := 8) (by omega)
    obtain ⟨b', hb', ⟨hpacked, hstorage⟩ | ⟨rfl, hrefused⟩⟩ := hwrite
    · have hrest := ih hpacked
      rw [List.append_assoc, ← BitOrder.stream_cons] at hrest
      rw [writeOctets_cons, hb', Option.bind_some]
      refine hrest.mono ?_
      rw [List.length_cons]
      unfold bufferIncrement at hstorage ⊢
      omega
    · refine ⟨writeclear, ?_, .inr ⟨rfl, fun hgranted => hrefused (hgranted.mono ?_)⟩⟩
      · rw [writeOctets_cons, hb', Option.bind_some, writeOctets_writeclear]
      · rw [List.length_cons]
        unfold bufferIncrement
        omega

/-- The copy of whole octets to the start of an octet. -/
theorem Packed.copyBlock {source : Bytes} (h : Packed o b bits) (hzero : b.endbit = 0)
    (hroom : b.endbyte + source.length < b.storage) :
    ∃ b', b.copyBlock source = some b' ∧ Packed o b' (bits ++ o.stream source) ∧
      b'.storage = b.storage := by
  have hstorage := h.storage
  have hlength := h.length
  have hbefore := h.room
  obtain ⟨buffer, hbuffer⟩ : ∃ buffer, buffer = b.buffer.take b.endbyte ++ source.map some ++
    b.buffer.drop (b.endbyte + source.length) := ⟨_, rfl⟩
  have hsize : buffer.length = b.storage := by
    rw [hbuffer, List.length_append, List.length_append, List.length_take, List.length_map,
      List.length_drop]
    omega
  refine ⟨⟨b.endbyte + source.length, b.endbit, buffer.set (b.endbyte + source.length + 0) (some 0),
    some (b.endbyte + source.length), b.storage⟩, ?_, ?_, rfl⟩
  · unfold OggpackBuffer.copyBlock
    rw [h.ptr]
    show (if _ then _ else none) = _
    rw [if_pos (by omega), ← hbuffer]
    exact @store_eq ⟨_, _, buffer, _, _⟩ _ 0 0 rfl (by show _ < buffer.length; omega)
  · refine ⟨rfl, (List.length_set ..).trans hsize, hroom, h.endbit_lt, ?_, fun k hk => ?_⟩
    · show (bits ++ o.stream source).length = 8 * (b.endbyte + source.length) + b.endbit
      rw [List.length_append, BitOrder.length_stream]
      omega
    have hk : k ≤ b.endbyte + source.length := hk
    show ∃ x, (buffer.set _ _)[k]? = some (some x) ∧ _
    rcases Nat.lt_trichotomy k (b.endbyte + source.length) with hlt | rfl | hgt
    · rw [List.getElem?_set_ne (by omega), hbuffer,
        List.getElem?_append_left (by rw [List.length_append, List.length_take, List.length_map]
                                      omega)]
      by_cases hk' : k < b.endbyte
      · -- An octet that was there before.
        obtain ⟨x, hx, hxbits⟩ := h.cells k (Nat.le_of_lt hk')
        refine ⟨x, ?_, fun j hj => ?_⟩
        · rw [List.getElem?_append_left (by rw [List.length_take]; omega),
            List.getElem?_take_of_lt hk', hx]
        · rw [hxbits j hj, List.getD_append _ _ _ _ (by omega)]
      · -- An octet of the source.
        have hsource : k - b.endbyte < source.length := by omega
        refine ⟨source[k - b.endbyte], ?_, fun j hj => ?_⟩
        · rw [List.getElem?_append_right (by rw [List.length_take]; omega), List.length_take,
            show k - min b.endbyte b.buffer.length = k - b.endbyte by omega, List.getElem?_map,
            List.getElem?_eq_getElem hsource]
          rfl
        · rw [List.getD_append_right _ _ _ _ (by omega), List.getD,
            show 8 * k + j - bits.length = 8 * (k - b.endbyte) + j by omega,
            BitOrder.getElem?_stream _ _ hj, List.getElem?_eq_getElem hsource]
          rfl
    · -- The octet behind the source.
      refine ⟨0, List.getElem?_set_self (by omega), fun j _ => ?_⟩
      rw [List.getD_eq_default _ _ (by rw [List.length_append, BitOrder.length_stream]; omega)]
      exact Nat.zero_testBit _
    · omega

/-- The trailing bits of a source are the first bits of its last octet. -/
theorem field_trailing (hn : n ≤ 8) :
    o.field n (trailing o x n) = (o.field 8 x.toNat).take n := by
  refine List.ext_getElem? fun i => ?_
  rw [List.getElem?_take]
  split
  · next hi =>
    rw [BitOrder.getElem?_field _ hi, BitOrder.getElem?_field _ (by omega)]
    cases o with
    | lsb => rfl
    | msb =>
      show some ((x.toNat >>> (8 - n)).testBit (n - 1 - i)) = some (x.toNat.testBit (7 - i))
      rw [Nat.testBit_shiftRight, show 8 - n + (n - 1 - i) = 7 - i by omega]
  · next hi => rw [List.getElem?_eq_none (by rw [BitOrder.length_field]; omega)]

/-- The first bits of a byte string: those of whole octets, and the first of the next one. -/
theorem take_stream {source : Bytes} {m r : Nat} (hx : source[m]? = some x) (hr : r ≤ 8) :
    (o.stream source).take (8 * m + r) =
      o.stream (source.take m) ++ (o.field 8 x.toNat).take r := by
  induction source generalizing m with
  | nil => simp at hx
  | cons y source ih =>
    cases m with
    | zero =>
      rw [List.getElem?_cons_zero] at hx
      cases hx
      rw [BitOrder.stream_cons, Nat.mul_zero, Nat.zero_add,
        List.take_append_of_le_length (by rwa [BitOrder.length_field])]
      rfl
    | succ m =>
      rw [List.getElem?_cons_succ] at hx
      rw [BitOrder.stream_cons, List.take_append, BitOrder.length_field,
        List.take_of_length_le (by rw [BitOrder.length_field]; omega),
        show 8 * (m + 1) + r - 8 = 8 * m + r by omega, ih hx, List.take_succ_cons,
        BitOrder.stream_cons, List.append_assoc]

/-- The first bits of whole octets. -/
theorem take_stream_octets (source : Bytes) (m : Nat) :
    (o.stream source).take (8 * m) = o.stream (source.take m) := by
  cases hx : source[m]? with
  | none =>
    have hle := List.getElem?_eq_none_iff.mp hx
    rw [List.take_of_length_le hle, List.take_of_length_le (by rw [BitOrder.length_stream]; omega)]
  | some x =>
    have := take_stream (o := o) (r := 0) hx (by omega)
    simpa using this

/-- The expansion in front of a copy gives room for its whole octets. -/
theorem Packed.expand (h : Packed o b bits) (alloc : Nat → Bool) (pbytes : Nat) :
    (∃ b', b.expand alloc pbytes = some b' ∧ Packed o b' bits ∧ b'.endbit = b.endbit ∧
      b'.endbyte = b.endbyte ∧ b.endbyte + pbytes < b'.storage ∧
      b'.storage ≤ b.storage + pbytes + bufferIncrement) ∨
    (b.expand alloc pbytes = none ∧ ¬Granted alloc (b.storage + pbytes + bufferIncrement)) := by
  have hroom := h.room
  unfold OggpackBuffer.expand
  by_cases hlt : b.endbyte + pbytes < b.storage
  · rw [if_pos hlt]
    exact .inl ⟨b, rfl, h, rfl, rfl, hlt, by omega⟩
  · rw [if_neg hlt, if_neg (by rw [h.ptr]; exact Option.some_ne_none _)]
    show _ ∨ (if longMax < b.endbyte + pbytes + bufferIncrement then none else _) = none ∧ _
    -- The source sees from the sum that it has wrapped around, and gives up.
    by_cases hmax : longMax < b.endbyte + pbytes + bufferIncrement
    · refine .inr ⟨if_pos hmax, fun hgranted => ?_⟩
      have := hgranted.1
      omega
    · by_cases halloc : alloc (b.endbyte + pbytes + bufferIncrement) = true
      · refine .inl ⟨b.realloc (b.endbyte + pbytes + bufferIncrement), ?_, h.realloc ?_, rfl, rfl,
          ?_, ?_⟩
        · rw [if_neg hmax, if_pos halloc]
        · unfold bufferIncrement
          omega
        · show _ < b.endbyte + pbytes + bufferIncrement
          unfold bufferIncrement
          omega
        · show b.endbyte + pbytes + bufferIncrement ≤ _
          omega
      · refine .inr ⟨?_, fun hgranted => halloc (hgranted.2 _ (by omega))⟩
        rw [if_neg hmax, if_neg halloc]

/-- The copy of the whole octets, block by block or octet by octet. -/
theorem Packed.copyOctets {source : Bytes} (h : Packed o b bits) (alloc : Nat → Bool)
    (hcount : source.length ≤ intMax)
    (hroom : b.endbyte + (b.endbit + 8 * source.length) / 8 < b.storage) :
    Leaves o alloc (b.storage + bufferIncrement * source.length)
      (b.copyOctets o alloc source) (bits ++ o.stream source) := by
  unfold OggpackBuffer.copyOctets
  split
  · rw [if_neg (Nat.not_lt.mpr hcount)]
    exact h.writeOctets alloc source
  · next hzero =>
    have hzero := not_not.mp hzero
    have hfits : b.endbyte + source.length < b.storage := by omega
    obtain ⟨b', hb', hpacked, hstorage⟩ := h.copyBlock hzero hfits
    exact ⟨b', hb', .inl ⟨hpacked, by omega⟩⟩

/-- A copy appends the first bits of its source. -/
theorem Packed.writecopy {source : Bytes} (h : Packed o b bits) (alloc : Nat → Bool)
    (hn : n ≤ 8 * source.length) (hcount : n / 8 ≤ intMax) :
    Leaves o alloc (b.storage + bufferIncrement * (2 * (n / 8) + 4)) (b.writecopy o alloc source n)
      (bits ++ (o.stream source).take n) := by
  have hendbit := h.endbit_lt
  have hroom := h.room
  unfold OggpackBuffer.writecopy
  obtain ⟨b₁, hb₁, h₁, hendbit₁, hendbyte₁, hroom₁, hstorage₁⟩ | ⟨hnone, hrefused⟩ :=
    h.expand alloc ((b.endbit + n) / 8)
  · have hlength : (source.take (n / 8)).length = n / 8 := by
      rw [List.length_take]
      omega
    have hfits : b₁.endbyte + (b₁.endbit + 8 * (source.take (n / 8)).length) / 8 < b₁.storage := by
      rw [hlength, hendbyte₁, hendbit₁]
      omega
    have hoctets := h₁.copyOctets alloc (Nat.le_trans (Nat.le_of_eq hlength) hcount) hfits
    rw [hlength] at hoctets
    simp only [hb₁, if_neg (show ¬source.length < n / 8 by omega)]
    obtain ⟨b₂, hb₂, h₂⟩ := hoctets
    simp only [hb₂, Option.bind_eq_bind, Option.bind_some]
    have hsplit : n = 8 * (n / 8) + (n - n / 8 * 8) := by omega
    by_cases hrest : n - n / 8 * 8 = 0
    · -- There are no trailing bits.
      have htake : (o.stream source).take n = o.stream (source.take (n / 8)) := by
        rw [← take_stream_octets]
        congr 1
        omega
      rw [if_neg (not_not.mpr hrest), htake]
      refine Leaves.mono ⟨b₂, rfl, h₂⟩ ?_
      unfold bufferIncrement at *
      omega
    · have hlt : n / 8 < source.length := by omega
      have hx : source[n / 8]? = some source[n / 8] := List.getElem?_eq_getElem hlt
      have hr : n - n / 8 * 8 ≤ 8 := by omega
      rw [if_pos hrest, hx, Option.bind_some]
      obtain ⟨hpacked, hstorage₂⟩ | ⟨rfl, hrefused⟩ := h₂
      · have hwrite := hpacked.write alloc (trailing o source[n / 8] (n - n / 8 * 8))
          (n := n - n / 8 * 8) (by omega)
        rw [field_trailing hr, List.append_assoc, ← take_stream hx hr, ← hsplit] at hwrite
        refine hwrite.mono ?_
        unfold bufferIncrement at hstorage₁ hstorage₂ ⊢
        omega
      · rw [write_writeclear]
        refine ⟨_, rfl, .inr ⟨rfl, fun hgranted => hrefused (hgranted.mono ?_)⟩⟩
        unfold bufferIncrement at hstorage₁ ⊢
        omega
  · rw [hnone]
    refine ⟨_, rfl, .inr ⟨rfl, fun hgranted => hrefused (hgranted.mono ?_)⟩⟩
    unfold bufferIncrement
    omega

/-- Nothing is copied to a cleared buffer. -/
theorem writecopy_writeclear (source : Bytes) :
    writeclear.writecopy o alloc source n = some writeclear := rfl

/-! ### Cutting -/

/-- The mask of a cut keeps the bits in front of it. -/
theorem fieldBit_truncMask {endbit j : Nat} (hendbit : endbit < 8) (hj : j < 8) :
    o.fieldBit 8 (UInt8.ofNat (truncMask o endbit)).toNat j = decide (j < endbit) := by
  have hall : ∀ o : BitOrder, ∀ e < 8, ∀ j < 8,
      o.fieldBit 8 (UInt8.ofNat (truncMask o e)).toNat j = decide (j < e) := by
    intro o
    cases o <;> decide
  exact hall o endbit hendbit j hj

/-- A cut keeps the first bits. -/
theorem Packed.writetrunc (h : Packed o b bits) (hn : n ≤ bits.length) :
    ∃ b', b.writetrunc o n = some b' ∧ Packed o b' (bits.take n) ∧ b'.storage = b.storage := by
  have hlength := h.length
  have hendbit := h.endbit_lt
  have hroom := h.room
  have hstorage := h.storage
  -- The cut is at an octet that is there, so its cell holds a value that can be masked.
  have hn' : n / 8 ≤ b.endbyte := by omega
  have hsub : n - n / 8 * 8 < 8 := by omega
  obtain ⟨x, hx, hxbits⟩ := h.cells (n / 8) hn'
  refine ⟨⟨n / 8, n - n / 8 * 8, b.buffer.set (n / 8 + 0)
    (some (x &&& UInt8.ofNat (truncMask o (n - n / 8 * 8)))), some (n / 8), b.storage⟩, ?_, ?_, rfl⟩
  · unfold OggpackBuffer.writetrunc
    rw [if_neg (by rw [h.ptr]; exact Option.some_ne_none _)]
    simp only [@load_eq ⟨n / 8, n - n / 8 * 8, b.buffer, some (n / 8), b.storage⟩ (n / 8) 0 x rfl hx,
      Option.bind_eq_bind, Option.bind_some]
    exact @store_eq ⟨_, _, b.buffer, _, _⟩ _ 0 _ rfl (by show _ < b.buffer.length; omega)
  · refine ⟨rfl, (List.length_set ..).trans hstorage, Nat.lt_of_le_of_lt hn' hroom, hsub, ?_,
      fun k hk => ?_⟩
    · show (bits.take n).length = 8 * (n / 8) + (n - n / 8 * 8)
      rw [List.length_take]
      omega
    have hk : k ≤ n / 8 := hk
    have htake : ∀ i, (bits.take n).getD i false = (bits.getD i false && decide (i < n)) := by
      intro i
      simp only [List.getD, List.getElem?_take]
      by_cases hi : i < n
      · simp [hi]
      · simp [hi]
    show ∃ y, (b.buffer.set _ _)[k]? = some (some y) ∧ _
    by_cases heq : k = n / 8
    · -- The octet at the cut keeps its low bits, or its high ones if the first bit is the highest.
      subst heq
      refine ⟨_, List.getElem?_set_self (by omega), fun j hj => ?_⟩
      have hand : o.fieldBit 8 (x &&& UInt8.ofNat (truncMask o (n - n / 8 * 8))).toNat j =
          (o.fieldBit 8 x.toNat j &&
            o.fieldBit 8 (UInt8.ofNat (truncMask o (n - n / 8 * 8))).toNat j) := by
        rw [UInt8.toNat_and]
        exact Nat.testBit_and _ _ _
      rw [hand, hxbits j hj, fieldBit_truncMask hsub hj, htake]
      congr 1
      exact decide_eq_decide.mpr (by omega)
    · -- The octets in front of the cut are untouched.
      obtain ⟨y, hy, hybits⟩ := h.cells k (by omega)
      refine ⟨y, ?_, fun j hj => ?_⟩
      · rw [List.getElem?_set_ne (by omega), hy]
      · rw [hybits j hj, htake, decide_eq_true (by omega), Bool.and_true]

/-- A cleared buffer stays cleared when it is cut. -/
theorem writetrunc_writeclear : writeclear.writetrunc o n = some writeclear := rfl

/-- The first octet is zero. -/
theorem packed_nil {buffer : List (Option UInt8)} (hsize : 0 < buffer.length) :
    Packed o ⟨0, 0, buffer.set 0 (some 0), some 0, buffer.length⟩ [] := by
  refine ⟨rfl, List.length_set .., hsize, Nat.zero_lt_succ 7, rfl, fun k hk => ?_⟩
  obtain rfl := Nat.le_zero.mp hk
  exact ⟨0, List.getElem?_set_self hsize, fun j _ => Nat.zero_testBit _⟩

/-- A new buffer has a cell for its first octet, which `writeinit` sets to zero. -/
theorem length_fresh :
    0 < (List.replicate bufferIncrement (none : Option UInt8)).length := by
  rw [List.length_replicate]
  exact Nat.zero_lt_succ 255

/-- What `writeinit` leaves when its allocation succeeds. -/
theorem writeinit_eq (h : alloc bufferIncrement = true) :
    writeinit alloc = some
      ⟨0, 0, (List.replicate bufferIncrement none).set 0 (some 0), some 0, bufferIncrement⟩ := by
  unfold writeinit
  rw [if_pos h]
  exact @store_eq ⟨_, _, List.replicate bufferIncrement none, _, _⟩ 0 0 0 rfl length_fresh

/-- A new buffer holds no bits. -/
theorem packed_writeinit (h : writeinit alloc = some b) : Packed o b [] := by
  by_cases halloc : alloc bufferIncrement = true
  · rw [writeinit_eq halloc] at h
    obtain rfl := Option.some.inj h
    have hpacked := @packed_nil o _ length_fresh
    rw [List.length_replicate] at hpacked
    exact hpacked
  · unfold writeinit at h
    rw [if_neg halloc] at h
    cases h

/-- A reset leaves no bits, in the same storage. -/
theorem Packed.reset (h : Packed o b bits) :
    ∃ b', b.reset = some b' ∧ Packed o b' [] ∧ b'.storage = b.storage := by
  have hroom := h.room
  have hstorage := h.storage
  refine ⟨⟨0, 0, b.buffer.set 0 (some 0), some 0, b.storage⟩, ?_, ?_, rfl⟩
  · unfold OggpackBuffer.reset
    rw [if_neg (by rw [h.ptr]; exact Option.some_ne_none _)]
    exact @store_eq ⟨_, _, b.buffer, _, _⟩ 0 0 0 rfl (by show 0 < b.buffer.length; omega)
  · rw [← hstorage]
    exact packed_nil (by omega)

/-! ### The octets of a buffer -/

/-- What the users of a buffer see: the number of its bits, and octets that are these bits with
zeros behind them. -/
structure Holds (o : BitOrder) (b : OggpackBuffer) (bits : List Bool) : Prop where
  count : b.bits = bits.length
  content : ∃ bytes, b.content = some bytes ∧
    o.stream bytes = bits ++ List.replicate ((8 - bits.length % 8) % 8) false

/-- Octets that have all been stored can be read as a list of octets. -/
theorem mapM_id_map (bytes : Bytes) : (bytes.map some).mapM id = some bytes := by
  induction bytes with
  | nil => rfl
  | cons x bytes ih => simp [ih]

/-- A buffer that packs the bits holds them: its octets are readable, and they are those of the
bits. -/
theorem Packed.holds (h : Packed o b bits) : Holds o b bits := by
  have hlength := h.length
  have hendbit := h.endbit_lt
  have hroom := h.room
  have hstorage := h.storage
  have hbytes : b.bytes ≤ b.endbyte + 1 := by
    unfold OggpackBuffer.bytes
    omega
  obtain ⟨bytes, hdef⟩ : ∃ bytes, bytes = (List.range b.bytes).map fun k =>
    (b.buffer[k]?.join).getD 0 := ⟨_, rfl⟩
  have hget : ∀ k, bytes[k]? = if k < b.bytes then some ((b.buffer[k]?.join).getD 0) else none := by
    intro k
    rw [hdef, List.getElem?_map]
    by_cases hk : k < b.bytes
    · rw [List.getElem?_range hk, if_pos hk]
      rfl
    · rw [List.getElem?_eq_none (by rw [List.length_range]; omega), if_neg hk]
      rfl
  refine ⟨?_, bytes, ?_, ?_⟩
  · unfold OggpackBuffer.bits
    omega
  · -- All cells that are counted were stored.
    have htake : b.buffer.take b.bytes = bytes.map some := by
      refine List.ext_getElem? fun k => ?_
      rw [List.getElem?_take, List.getElem?_map, hget]
      by_cases hk : k < b.bytes
      · obtain ⟨x, hx, -⟩ := h.cells k (by omega)
        simp [hk, hx]
      · simp [hk]
    unfold OggpackBuffer.content
    rw [htake, mapM_id_map]
  · refine List.ext_getElem? fun i => ?_
    obtain ⟨k, j, hj, rfl⟩ : ∃ k j, j < 8 ∧ i = 8 * k + j :=
      ⟨i / 8, i % 8, Nat.mod_lt _ (by omega), by omega⟩
    have hcount : b.bytes = (bits.length + 7) / 8 := by
      unfold OggpackBuffer.bytes
      omega
    rw [BitOrder.getElem?_stream _ _ hj, hget]
    by_cases hk : k < b.bytes
    · obtain ⟨x, hx, hxbits⟩ := h.cells k (by omega)
      rw [if_pos hk, hx]
      show some (o.fieldBit 8 x.toNat j) = _
      rw [hxbits j hj]
      by_cases hi : 8 * k + j < bits.length
      · rw [List.getElem?_append_left hi, List.getD, List.getElem?_eq_getElem hi]
        rfl
      · rw [List.getElem?_append_right (Nat.not_lt.mp hi), List.getElem?_replicate,
          if_pos (by omega), List.getD_eq_default _ _ (Nat.not_lt.mp hi)]
    · rw [if_neg hk, List.getElem?_eq_none]
      · rfl
      · rw [List.length_append, List.length_replicate]
        omega

/-- The check reports a cleared buffer. -/
theorem writecheck_writeclear : writeclear.writecheck = -1 := rfl

/-- The check accepts a buffer that packs its bits. -/
theorem Packed.writecheck (h : Packed o b bits) : b.writecheck = 0 := by
  have hroom := h.room
  refine if_neg ?_
  rintro (hptr | hzero)
  · rw [h.ptr] at hptr
    cases hptr
  · omega

/-! ### Runs of operations -/

/-- The operations on a buffer for writing. Each has its own outcome of allocations, so a run can
meet any failures. -/
inductive WriteOp
  | write (alloc : Nat → Bool) (value : Nat) (bits : Int)
  | writealign (alloc : Nat → Bool)
  | writecopy (alloc : Nat → Bool) (source : Bytes) (bits : Nat)
  | writetrunc (bits : Nat)
  | reset
  | writeclear

/-- A buffer, and the bits that were written to it. The bits are the record that the buffer is
compared with. -/
structure Writer where
  buffer : OggpackBuffer
  bits : List Bool

namespace WriteOp

/-- What the operation does to the buffer. There is no next buffer if it has a fault. -/
def perform (o : BitOrder) (b : OggpackBuffer) : WriteOp → Option OggpackBuffer
  | write alloc value bits => b.write o alloc value bits
  | writealign alloc => b.writealign o alloc
  | writecopy alloc source bits => b.writecopy o alloc source bits
  | writetrunc bits => b.writetrunc o bits
  | reset => b.reset
  | writeclear => some OggpackBuffer.writeclear

/-- What the operation does to a string of bits. -/
def apply (o : BitOrder) (bits : List Bool) : WriteOp → List Bool
  | write _ value n => bits ++ o.field n.toNat value
  | writealign _ => bits ++ List.replicate ((8 - bits.length % 8) % 8) false
  | writecopy _ source n => bits ++ (o.stream source).take n
  | writetrunc n => bits.take n
  | reset => []
  | writeclear => bits

/-- The source of a copy has the bits, whose whole octets an `int` can count, and a cut is inside of
what was written. -/
def Allowed (w : Writer) : WriteOp → Prop
  | writecopy _ source n => n ≤ 8 * source.length ∧ n / 8 ≤ intMax
  | writetrunc n => n ≤ w.bits.length
  | _ => True

/-- The width is one of a word, and no allocation is refused. -/
def Succeeds (w : Writer) : WriteOp → Prop
  | write alloc _ n => (0 ≤ n ∧ n ≤ 32) ∧ Granted alloc (w.buffer.storage + bufferIncrement)
  | writealign alloc => Granted alloc (w.buffer.storage + bufferIncrement)
  | writecopy alloc _ n => Granted alloc (w.buffer.storage + bufferIncrement * (2 * (n / 8) + 4))
  | writetrunc _ => True
  | reset => True
  | writeclear => False

end WriteOp

/-- One operation on the buffer. There is no next state if it has a fault. -/
def Writer.step (o : BitOrder) (w : Writer) (op : WriteOp) : Option Writer :=
  (op.perform o w.buffer).map fun b => ⟨b, op.apply o w.bits⟩

/-- The buffer is cleared, or holds what was written. This is what every operation keeps, also one
that fails. -/
def Writer.Invariant (o : BitOrder) (w : Writer) : Prop :=
  w.buffer = writeclear ∨ Packed o w.buffer w.bits

variable {w : Writer} {op : WriteOp}

/-- An operation on a cleared buffer leaves it cleared. -/
theorem perform_writeclear : op.perform o writeclear = some writeclear := by
  cases op with
  | write alloc value bits => exact @write_writeclear o alloc value bits
  | writealign alloc => rfl
  | writecopy alloc source bits => exact @writecopy_writeclear o bits alloc source
  | writetrunc bits => exact @writetrunc_writeclear o bits
  | reset => rfl
  | writeclear => rfl

/-- An operation on a buffer that holds bits has no fault. It clears the buffer, which it does not
if it succeeds, or does to the buffer what it does to the bits. -/
theorem Packed.perform (h : Packed o w.buffer w.bits) (hop : op.Allowed w) :
    ∃ b, op.perform o w.buffer = some b ∧
      (Packed o b (op.apply o w.bits) ∨ b = writeclear ∧ ¬op.Succeeds w) := by
  cases op with
  | write alloc value n =>
    -- A width that `oggpack_write` refuses clears the buffer.
    by_cases hn : n < 0 ∨ 32 < n
    · refine ⟨writeclear, if_pos hn, .inr ⟨rfl, fun hsucceeds => ?_⟩⟩
      have := hsucceeds.1
      omega
    · obtain ⟨m, rfl⟩ := Int.eq_ofNat_of_zero_le (show 0 ≤ n by omega)
      obtain ⟨b, hb, ⟨hpacked, -⟩ | ⟨hclear, hrefused⟩⟩ :=
        h.write alloc value (n := m) (by omega)
      · exact ⟨b, hb, .inl hpacked⟩
      · exact ⟨b, hb, .inr ⟨hclear, fun hsucceeds => hrefused hsucceeds.2⟩⟩
  | writealign alloc =>
    obtain ⟨b, hb, ⟨hpacked, -⟩ | hclear⟩ := h.writealign alloc
    · exact ⟨b, hb, .inl hpacked⟩
    · exact ⟨b, hb, .inr hclear⟩
  | writecopy alloc source n =>
    obtain ⟨b, hb, ⟨hpacked, -⟩ | hclear⟩ := h.writecopy alloc hop.1 hop.2
    · exact ⟨b, hb, .inl hpacked⟩
    · exact ⟨b, hb, .inr hclear⟩
  | writetrunc n =>
    obtain ⟨b, hb, hpacked, -⟩ := h.writetrunc hop
    exact ⟨b, hb, .inl hpacked⟩
  | reset =>
    obtain ⟨b, hb, hpacked, -⟩ := h.reset
    exact ⟨b, hb, .inl hpacked⟩
  | writeclear => exact ⟨writeclear, rfl, .inr ⟨rfl, not_false⟩⟩

/-- An operation that is allowed has no fault, and keeps the invariant. -/
theorem Writer.Invariant.step (h : w.Invariant o) (hop : op.Allowed w) :
    ∃ w', w.step o op = some w' ∧ w'.Invariant o := by
  unfold Writer.step
  rcases h with hclear | hpacked
  · rw [hclear, perform_writeclear]
    exact ⟨_, rfl, .inl rfl⟩
  · obtain ⟨b, hb, hb'⟩ := hpacked.perform hop
    rw [hb]
    refine ⟨_, rfl, ?_⟩
    rcases hb' with hpacked' | ⟨hclear, -⟩
    · exact .inr hpacked'
    · exact .inl hclear

/-- In every run of operations on a fresh buffer: no operation has a fault, and as long as the check
succeeds the buffer holds what was written. The check succeeds if all operations do. A run may cut
the buffer only where it has bits, and copy only what the source has. -/
theorem holds_of_steps {b₀ : OggpackBuffer} (hinit : writeinit alloc = some b₀) :
    (∀ w, Steps (Writer.step o) (fun w op => op.Allowed w) ⟨b₀, []⟩ w →
      (∀ op, op.Allowed w → (w.step o op).isSome) ∧
      (w.buffer.writecheck = 0 → Holds o w.buffer w.bits)) ∧
    ∀ w, Steps (Writer.step o) (fun w op => op.Allowed w ∧ op.Succeeds w) ⟨b₀, []⟩ w →
      w.buffer.writecheck = 0 := by
  have hstart : Packed o b₀ [] := packed_writeinit hinit
  constructor
  · intro w h
    -- A failed allocation leaves a cleared buffer, which every later call leaves as it is, so the
    -- invariant has both cases.
    have hw : w.Invariant o := by
      refine h.invariant (I := Writer.Invariant o) (.inr hstart) ?_
      intro w op w' hw hop hstep
      obtain ⟨w'', hstep', hw'⟩ := hw.step hop
      obtain rfl := Option.some.inj (hstep.symm.trans hstep')
      exact hw'
    constructor
    · intro op hop
      obtain ⟨w', hstep, -⟩ := hw.step hop
      rw [hstep]
      rfl
    · intro hcheck
      rcases hw with hclear | hpacked
      · rw [hclear, writecheck_writeclear] at hcheck
        cases hcheck
      · exact hpacked.holds
  · intro w h
    -- Here no operation fails, and the buffer is never cleared.
    have hw : Packed o w.buffer w.bits := by
      refine h.invariant (I := fun w => Packed o w.buffer w.bits) hstart ?_
      intro w op w' hw hop hstep
      obtain ⟨b, hb, hpacked | ⟨-, hfails⟩⟩ := hw.perform hop.1
      · unfold Writer.step at hstep
        rw [hb] at hstep
        obtain rfl := Option.some.inj hstep
        exact hpacked
      · exact absurd hop.2 hfails
    exact hw.writecheck

instance WriteOp.decidableAllowed (w : Writer) : (op : WriteOp) → Decidable (op.Allowed w)
  | .writecopy _ source n =>
    inferInstanceAs (Decidable (n ≤ 8 * source.length ∧ n / 8 ≤ intMax))
  | .writetrunc n => inferInstanceAs (Decidable (n ≤ w.bits.length))
  | .write _ _ _ | .writealign _ | .reset | .writeclear => .isTrue trivial

instance decidableGranted (alloc : Nat → Bool) (limit : Nat) : Decidable (Granted alloc limit) :=
  inferInstanceAs (Decidable (limit ≤ longMax ∧ ∀ size ≤ limit, alloc size = true))

instance WriteOp.decidableSucceeds (w : Writer) : (op : WriteOp) → Decidable (op.Succeeds w)
  | .write alloc _ n => inferInstanceAs (Decidable ((0 ≤ n ∧ n ≤ 32) ∧
    Granted alloc (w.buffer.storage + bufferIncrement)))
  | .writealign alloc =>
    inferInstanceAs (Decidable (Granted alloc (w.buffer.storage + bufferIncrement)))
  | .writecopy alloc _ n => inferInstanceAs (Decidable
    (Granted alloc (w.buffer.storage + bufferIncrement * (2 * (n / 8) + 4))))
  | .writetrunc _ | .reset => .isTrue trivial
  | .writeclear => .isFalse id

/-- Two words, a cut in the second one, and a copy of twelve bits to the middle of an octet. -/
def wordsAndCopy : List WriteOp :=
  [.write (fun _ => true) 5 3, .write (fun _ => true) 0x1ff 9, .writetrunc 11,
    .writecopy (fun _ => true) [0x53, 0x0a] 12, .writealign fun _ => true]

/-- What is in a fresh buffer behind these operations. -/
theorem holds_of_steps_copy :
    ∃ b₀ w, writeinit (fun _ => true) = some b₀ ∧
      Steps (Writer.step .lsb) (fun w op => op.Allowed w ∧ op.Succeeds w) ⟨b₀, []⟩ w ∧
      Holds .lsb w.buffer
        [true, false, true, true, true, true, true, true, true, true, true,
          true, true, false, false, true, false, true, false, false, true, false, true, false] := by
  obtain ⟨b₀, hb₀⟩ : ∃ b₀, b₀ = OggpackBuffer.mk 0 0
    ((List.replicate bufferIncrement none).set 0 (some 0)) (some 0) bufferIncrement := ⟨_, rfl⟩
  have hinit : writeinit (fun _ => true) = some b₀ := hb₀ ▸ writeinit_eq rfl
  obtain ⟨hheld, hchecked⟩ := holds_of_steps (o := .lsb) hinit
  have hrun : (runActions (guarded (Writer.step .lsb) fun w op =>
      decide (op.Allowed w ∧ op.Succeeds w)) ⟨b₀, []⟩ wordsAndCopy).map Writer.bits =
        some [true, false, true, true, true, true, true, true, true, true, true,
          true, true, false, false, true, false, true, false, false, true, false, true,
          false] := by
    rw [hb₀]
    decide +kernel
  obtain ⟨w, hw, hbits⟩ := Option.map_eq_some_iff.mp hrun
  have hsteps : Steps (Writer.step .lsb) (fun w op => op.Allowed w ∧ op.Succeeds w) ⟨b₀, []⟩ w :=
    steps_of_runActions (fun w op => of_decide_eq_true) hw
  have hallowed : Steps (Writer.step .lsb) (fun w op => op.Allowed w) ⟨b₀, []⟩ w :=
    steps_of_runActions (fun w op h => (of_decide_eq_true h).1) hw
  have hholds := (hheld w hallowed).2 (hchecked w hsteps)
  rw [hbits] at hholds
  exact ⟨b₀, w, hinit, hsteps, hholds⟩

end OggpackBuffer

end TSubSpec.Ogg
