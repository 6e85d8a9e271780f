import TSubSpec.Lib.Bits

/-!
# `TSubSpec.Ogg.Bitwise`: packing words of any width into octets

The model of `bitwise.c`. The source has every function twice, for the two orders of bits: the
`oggpack_` functions put the lowest bit of a word first, the `oggpackB_` functions the highest.
The functions here take the `BitOrder`, and the two families are their instances.

A cell of the buffer is `none` until something is stored in it. A load from such a cell, and an
access outside of the buffer or through a null pointer, is a fault: the function has no value.
`alloc size` says whether an allocation of `size` octets succeeds. A `long` has 64 bits and an
`int` has 32. Where the source computes with an `int` that may overflow, the overflow is a fault.
-/

set_option autoImplicit false

namespace TSubSpec.Ogg

open TSubSpec.Lib

/-- `LONG_MAX` -/
def longMax : Nat := 2 ^ 63 - 1

/-- `INT_MAX` -/
def intMax : Nat := 2 ^ 31 - 1

/-- `BUFFER_INCREMENT` -/
def bufferIncrement : Nat := 256

/-- The masks of the widths up to 32: entry `n` has the `n` low bits. -/
def mask : List Nat :=
  [0x00000000, 0x00000001, 0x00000003, 0x00000007, 0x0000000f,
   0x0000001f, 0x0000003f, 0x0000007f, 0x000000ff, 0x000001ff,
   0x000003ff, 0x000007ff, 0x00000fff, 0x00001fff, 0x00003fff,
   0x00007fff, 0x0000ffff, 0x0001ffff, 0x0003ffff, 0x0007ffff,
   0x000fffff, 0x001fffff, 0x003fffff, 0x007fffff, 0x00ffffff,
   0x01ffffff, 0x03ffffff, 0x07ffffff, 0x0fffffff, 0x1fffffff,
   0x3fffffff, 0x7fffffff, 0xffffffff]

/-- The masks of the widths up to 8 in the high order: entry `n` has the `n` high bits of an
octet. -/
def mask8B : List Nat := [0x00, 0x80, 0xc0, 0xe0, 0xf0, 0xf8, 0xfc, 0xfe, 0xff]

/-- `oggpack_buffer`. The pointer `ptr` is an offset into the buffer, and `none` for a null pointer.
The octets are `none` where nothing was stored since the allocation. -/
structure OggpackBuffer where
  endbyte : Nat
  endbit : Nat
  buffer : List (Option UInt8)
  ptr : Option Nat
  storage : Nat
  deriving DecidableEq, Repr

namespace OggpackBuffer

variable (o : BitOrder) (alloc : Nat → Bool) (b : OggpackBuffer)

/-- What `oggpack_writeclear` leaves: all fields are zero. The pointer is null, so every write does
nothing and the check fails. -/
def writeclear : OggpackBuffer := ⟨0, 0, [], none, 0⟩

/-- `b->ptr[k]`. There is no value outside of the buffer, and none of an octet that was never
stored. -/
def load (k : Nat) : Option UInt8 := do
  let p ← b.ptr
  let cell ← b.buffer[p + k]?
  cell

/-- `b->ptr[k] = x`. There is no next state outside of the buffer. -/
def store (k : Nat) (x : UInt8) : Option OggpackBuffer := do
  let p ← b.ptr
  if p + k < b.buffer.length then
    return { b with buffer := b.buffer.set (p + k) (some x) }
  else none

/-- The buffer is moved to a place of the given size. Its octets are kept, and what is new is not
set. -/
def realloc (size : Nat) : OggpackBuffer :=
  { b with
    buffer := b.buffer ++ List.replicate (size - b.buffer.length) none
    ptr := some b.endbyte
    storage := size }

/-- The last lines of a write or a read: the position moves to `bits` bits behind `endbyte`. -/
def advance (bits : Nat) : OggpackBuffer :=
  { b with
    endbyte := b.endbyte + bits / 8
    ptr := b.ptr.map (· + bits / 8)
    endbit := bits % 8 }

/-! ### Writing -/

/-- `oggpack_writeinit`: a buffer of the first size, whose first octet is zero. There is no value if
the allocation fails, where the source stores through a null pointer. -/
def writeinit : Option OggpackBuffer := do
  -- The result of the allocation is not checked before the first octet is stored.
  if alloc bufferIncrement then
    store ⟨0, 0, List.replicate bufferIncrement none, some 0, bufferIncrement⟩ 0 0
  else none

/-- `oggpack_writecheck`: is the buffer still usable? A write that fails clears it. -/
def writecheck : Int := if b.ptr = none ∨ b.storage = 0 then -1 else 0

/-- The bits of the last octet that stay when the buffer is cut in it. -/
def truncMask : BitOrder → Nat → Nat
  | .lsb, bits => mask.getD bits 0
  | .msb, bits => mask8B.getD bits 0

/-- `oggpack_writetrunc` and `oggpackB_writetrunc`: the buffer is cut behind its first `bits` bits,
and what is left of the last octet is masked. -/
def writetrunc (bits : Nat) : Option OggpackBuffer := do
  if b.ptr = none then return b
  let bytes := bits / 8
  let b := { b with ptr := some bytes, endbit := bits - bytes * 8, endbyte := bytes }
  let x ← b.load 0
  b.store 0 (x &&& UInt8.ofNat (truncMask o b.endbit))

/-- The word that is written: masked, and for the high bits first moved to the top of 32 bits. -/
def aligned : BitOrder → Nat → Nat → Nat
  | .lsb, value, bits => value &&& mask.getD bits 0
  | .msb, value, bits => (value &&& mask.getD bits 0) <<< (32 - bits)

/-- What is stored in `ptr[k]`: the part of the word that belongs there, when it is written behind
`endbit` bits of the first octet. It is truncated to an octet by the store. -/
def octet : BitOrder → (value endbit k : Nat) → Nat
  | .lsb, value, endbit, 0 => value <<< endbit
  | .lsb, value, endbit, 4 => if endbit = 0 then 0 else value >>> (32 - endbit)
  | .lsb, value, endbit, k => value >>> (8 * k - endbit)
  | .msb, value, endbit, 4 => if endbit = 0 then 0 else value <<< (8 - endbit)
  | .msb, value, endbit, k => value >>> (24 - 8 * k + endbit)

/-- The nested tests `bits>=8`, `bits>=16`, `bits>=24`, `bits>=32` with their stores. An octet is
stored only where bits of the word, or the zeros behind it, reach it. -/
def storeOctets (value endbit bits : Nat) : Option OggpackBuffer :=
  [1, 2, 3, 4].foldlM (fun b k =>
    if 8 * k ≤ bits then b.store k (UInt8.ofNat (octet o value endbit k)) else some b) b

/-- The part of a write behind the growth of the buffer: the first octet is filled up, the others
are stored, and the position moves on. -/
def put (value bits : Nat) : Option OggpackBuffer := do
  let value := aligned o value bits
  let bits := bits + b.endbit
  let x ← b.load 0
  let b' ← b.store 0 (x ||| UInt8.ofNat (octet o value b.endbit 0))
  let b' ← b'.storeOctets o value b.endbit bits
  return b'.advance bits

/-- How the growth of the buffer at the head of a write ends: there is room, there is no buffer, or
it cannot grow. -/
inductive Growth
  | ready (b : OggpackBuffer)
  | absent
  | refused

/-- The part of a write that makes room for four more octets: there is room, there is no buffer, the
allocation is refused, or the storage grows by `BUFFER_INCREMENT`. -/
def grow : Growth :=
  if b.endbyte + 4 < b.storage then .ready b
  else if b.ptr = none then .absent
  else if longMax - bufferIncrement < b.storage then .refused
  else if alloc (b.storage + bufferIncrement) then
    .ready (b.realloc (b.storage + bufferIncrement))
  else .refused

/-- `oggpack_write` and `oggpackB_write`: the low `bits` bits of a word. A width that is none, or a
buffer that cannot grow, clears the buffer. -/
def write (value : Nat) (bits : Int) : Option OggpackBuffer :=
  if bits < 0 ∨ 32 < bits then some writeclear
  else
    match b.grow alloc with
    | .absent => some b
    | .refused => some writeclear
    | .ready b => b.put o value bits.toNat

/-- `oggpack_writealign` and `oggpackB_writealign`: zeros up to the next octet. -/
def writealign : Option OggpackBuffer :=
  let bits := 8 - b.endbit
  if bits < 8 then b.write o alloc 0 bits else some b

/-- The loop of the unaligned copy: each octet of the source is written as a word of 8 bits. It
counts the octets with an `int`. -/
def writeOctets : OggpackBuffer → Bytes → Option OggpackBuffer
  | b, [] => some b
  | b, x :: xs => do
    let b ← b.write o alloc x.toNat 8
    writeOctets b xs

/-- `memmove(b->ptr, source, bytes)` and the stores behind it: the octet behind the block becomes
zero, for the next write. -/
def copyBlock (source : Bytes) : Option OggpackBuffer := do
  let p ← b.ptr
  if p + source.length ≤ b.buffer.length then
    let b := { b with
      buffer := b.buffer.take p ++ source.map some ++ b.buffer.drop (p + source.length)
      ptr := some (p + source.length)
      endbyte := b.endbyte + source.length }
    b.store 0 0
  else none

/-- The copy of whole octets. Only one to the start of an octet is done in a block. -/
def copyOctets (source : Bytes) : Option OggpackBuffer :=
  if b.endbit ≠ 0 then
    -- The loop counts the octets, a `long`, with an `int`.
    if intMax < source.length then none else b.writeOctets o alloc source
  else b.copyBlock source

/-- The trailing bits of a copy, as a word. -/
def trailing : BitOrder → UInt8 → Nat → Nat
  | .lsb, x, _ => x.toNat
  | .msb, x, bits => x.toNat >>> (8 - bits)

/-- The expansion in front of a copy. There is no value if the allocation fails, which clears the
buffer. -/
def expand (pbytes : Nat) : Option OggpackBuffer :=
  if b.endbyte + pbytes < b.storage then some b
  else if b.ptr = none then none
  else
    let storage := b.endbyte + pbytes + bufferIncrement
    -- The sum wraps around to a number below `storage`.
    if longMax < storage then none
    else if alloc storage then some (b.realloc storage)
    else none

/-- `oggpack_writecopy_helper`: the first `bits` bits of the source. The source has the octets that
are read, or there is a fault. -/
def writecopy (source : Bytes) (bits : Nat) : Option OggpackBuffer := do
  let bytes := bits / 8
  let rest := bits - bytes * 8
  match b.expand alloc ((b.endbit + bits) / 8) with
  | none => return writeclear
  | some b =>
    if source.length < bytes then none
    let b ← b.copyOctets o alloc (source.take bytes)
    if rest ≠ 0 then
      let x ← source[bytes]?
      b.write o alloc (trailing o x rest) rest
    else return b

/-- `oggpack_reset`: the position moves to the front, and the first octet becomes zero for the next
write. -/
def reset : Option OggpackBuffer :=
  if b.ptr = none then some b
  else store { b with ptr := some 0, endbit := 0, endbyte := 0 } 0 0

/-! ### Reading -/

/-- `oggpack_readinit`, for a buffer whose length is an `int`. The position is in front of its first
bit. -/
def readinit (buf : Bytes) : OggpackBuffer := ⟨0, 0, buf.map some, some 0, buf.length⟩

/-- An octet as an `int`, shifted to the left and widened to a `long`. -/
def shiftLeft (x : UInt8) (s : Nat) : BitVec 64 := (x.toBitVec.setWidth 32 <<< s).signExtend 64

/-- What `ptr[k]` adds to the word that is read, before it is masked. The octets behind the first
one are shifted by what is left of that. -/
def piece : BitOrder → (endbit k : Nat) → UInt8 → BitVec 64
  | .lsb, endbit, 0, x => x.toBitVec.setWidth 64 >>> endbit
  | .lsb, endbit, k, x => shiftLeft x (8 * k - endbit)
  | .msb, endbit, 4, x => x.toBitVec.setWidth 64 >>> (8 - endbit)
  | .msb, endbit, k, x => shiftLeft x (24 - 8 * k + endbit)

/-- The nested tests `bits>8`, `bits>16`, `bits>24`, `bits>32 && b->endbit` with their loads. An
octet is loaded only where bits of the word reach it. -/
def gather (bits : Nat) : Option (BitVec 64) := do
  let x ← b.load 0
  [1, 2, 3, 4].foldlM (fun ret k =>
    if 8 * k < bits ∧ (k = 4 → b.endbit ≠ 0) then do
      let x ← b.load k
      return ret ||| piece o b.endbit k x
    else some ret) (piece o b.endbit 0 x)

/-- The word of `bits` bits in what was read: masked, or shifted down from the top. -/
def finish : BitOrder → (bits : Nat) → BitVec 64 → BitVec 64
  | .lsb, bits, ret => BitVec.ofNat 64 (mask.getD bits 0) &&& ret
  | .msb, bits, ret =>
    let m := 32 - bits
    ((ret &&& 0xffffffff#64) >>> (m >>> 1)) >>> ((m + 1) >>> 1)

/-- The common part of a look and a read of at most 32 bits: the word, or nothing if the buffer
does not have as many. -/
def fetch (bits : Nat) : Option (Option (BitVec 64)) :=
  let total := bits + b.endbit
  if b.storage ≤ b.endbyte + 4 ∧ b.storage < b.endbyte + (total + 7) / 8 then some none
  -- `ptr[0]` might be past the end of the buffer.
  else if b.storage ≤ b.endbyte + 4 ∧ total = 0 then some (some 0)
  else (b.gather o total).map fun ret => some (finish o bits ret)

/-- `oggpack_look` and `oggpackB_look`: the next `bits` bits as a word, or -1 if there are fewer.
The position stays. -/
def look (bits : Int) : Option Int :=
  if bits < 0 ∨ 32 < bits then some (-1)
  else do
    match ← b.fetch o bits.toNat with
    | none => return -1
    | some ret => return ret.toInt

/-- The state behind an overflow: the pointer is null and the position is behind the end, so that
every later read fails. -/
def overflow : OggpackBuffer := { b with ptr := none, endbyte := b.storage, endbit := 1 }

/-- `oggpack_read` and `oggpackB_read`: the next `bits` bits as a word, or -1 if there are fewer.
The position moves behind them, or behind the end. -/
def read (bits : Int) : Option (Int × OggpackBuffer) :=
  if bits < 0 ∨ 32 < bits then some (-1, b.overflow)
  else do
    match ← b.fetch o bits.toNat with
    | none => return (-1, b.overflow)
    | some ret => return (ret.toInt, b.advance (bits.toNat + b.endbit))

/-- The bit `endbit` of `ptr[0]`. -/
def bit1 : BitOrder → (endbit : Nat) → UInt8 → Nat
  | .lsb, endbit, x => (x.toNat >>> endbit) &&& 1
  | .msb, endbit, x => (x.toNat >>> (7 - endbit)) &&& 1

/-- `oggpack_look1` and `oggpackB_look1`: the next bit, or -1 at the end. The position stays. -/
def look1 : Option Int :=
  if b.storage ≤ b.endbyte then some (-1)
  else do return bit1 o b.endbit (← b.load 0)

/-- `oggpack_adv1`: the position moves by one bit. It does not look where the end is. -/
def adv1 : OggpackBuffer :=
  if 7 < b.endbit + 1 then
    { b with endbit := 0, ptr := b.ptr.map (· + 1), endbyte := b.endbyte + 1 }
  else { b with endbit := b.endbit + 1 }

/-- `oggpack_read1` and `oggpackB_read1`: the next bit, or -1 at the end. The position moves. -/
def read1 : Option (Int × OggpackBuffer) :=
  if b.storage ≤ b.endbyte then some (-1, b.overflow)
  else do return (bit1 o b.endbit (← b.load 0), b.adv1)

/-- `oggpack_adv`. The position of the source is an `int` too, and a negative `bits` moves it back.
To move the pointer out of the buffer at its beginning is a fault. -/
def adv (bits : Int) : Option OggpackBuffer :=
  let total := bits + b.endbit
  if intMax < total + 7 then none
  -- The shift rounds down, and the division that follows rounds to zero.
  else if (b.storage : Int) - (total + 7) / 8 < b.endbyte then some b.overflow
  else if b.endbyte + total.tdiv 8 < 0 then none
  else some { b with
    endbyte := (b.endbyte + total.tdiv 8).toNat
    ptr := b.ptr.map fun (p : Nat) => (p + total.tdiv 8).toNat
    endbit := (total % 8).toNat }

/-- `oggpack_bytes`: the octets that are in use, the last one counted when it has a bit. -/
def bytes : Nat := b.endbyte + (b.endbit + 7) / 8

/-- `oggpack_bits`: the bits that were written, or read. -/
def bits : Nat := b.endbyte * 8 + b.endbit

/-- The octets of `oggpack_get_buffer` that `oggpack_bytes` counts. There is no value if one of them
was never stored. -/
def content : Option Bytes := (b.buffer.take b.bytes).mapM id

end OggpackBuffer

/-! ### The two families -/

open OggpackBuffer

abbrev oggpackWritetrunc := writetrunc .lsb
abbrev oggpackWrite := write .lsb
abbrev oggpackWritealign := writealign .lsb
abbrev oggpackWritecopy := writecopy .lsb
abbrev oggpackLook := look .lsb
abbrev oggpackRead := read .lsb
abbrev oggpackLook1 := look1 .lsb
abbrev oggpackRead1 := read1 .lsb

abbrev oggpackBWritetrunc := writetrunc .msb
abbrev oggpackBWrite := write .msb
abbrev oggpackBWritealign := writealign .msb
abbrev oggpackBWritecopy := writecopy .msb
abbrev oggpackBLook := look .msb
abbrev oggpackBRead := read .msb
abbrev oggpackBLook1 := look1 .msb
abbrev oggpackBRead1 := read1 .msb

end TSubSpec.Ogg
