import TSubSpec.Ogg.Bitwise
import TSubSpec.Ogg.Checksum

/-!
# `TSubSpec.Ogg.Framing`: packets, pages and the byte stream

The model of `framing.c`. A stream state takes packets and gives pages (`ogg_stream_packetin`,
`ogg_stream_flush`, `ogg_stream_pageout`), a sync state finds the pages in a stream of bytes
(`ogg_sync_pageseek`, `ogg_sync_pageout`), and a second stream state takes the pages and gives the
packets (`ogg_stream_pagein`, `ogg_stream_packetout`).

A buffer is a list that ends at its fill mark, beside the number of its cells that are allocated. A
store behind the last cell is a fault: the function has no value. So are a load from behind the
mark, a load of a granule position that was never stored, a counter below zero, and a place that
the source keeps in an `int` and that is too large for one.

`alloc size` says whether an allocation of `size` octets succeeds. A stream state whose allocation
fails is cleared, and from then on `ogg_stream_check` refuses it; a sync state is cleared too, and
starts anew. A `long` has 64 bits, and an `int` has 32 and is four octets large.
-/

set_option autoImplicit false

namespace TSubSpec.Ogg

open TSubSpec.Lib

/-! ### Pages -/

/-- `ogg_page`: the header with its segment table, and the body. The two lengths are those of the
lists. -/
structure OggPage where
  header : Bytes
  body : Bytes
  deriving DecidableEq, Repr

namespace OggPage

variable (og : OggPage)

/-- `ogg_page_version`: octet 4 of the header. Each of these reads has no value if the header is too
short for it, where the source reads outside of it. -/
def version : Option Nat := do
  let x ← og.header[4]?
  return x.toNat

/-- `ogg_page_continued`: the page begins inside of a packet. -/
def continued : Option Bool := do
  let x ← og.header[5]?
  return x &&& 0x01 ≠ 0

/-- `ogg_page_bos`: the page is the first one of its stream. -/
def bos : Option Bool := do
  let x ← og.header[5]?
  return x &&& 0x02 ≠ 0

/-- `ogg_page_eos`: the page is the last one of its stream. -/
def eos : Option Bool := do
  let x ← og.header[5]?
  return x &&& 0x04 ≠ 0

/-- `ogg_page_granulepos`: octets 6 to 13, the highest first. The source collects them in a signed
number. -/
def granulepos : Option (BitVec 64) :=
  if og.header.length < 14 then none
  else
    let page := (og.header.drop 6).take 8
    some (page.foldr (fun x granulepos => (granulepos <<< 8) ||| x.toBitVec.setWidth 64) 0)

/-- Four octets of the header as an `ogg_uint32_t`, the lowest first. -/
def word (i : Nat) : Option (BitVec 32) := do
  let a ← og.header[i]?
  let b ← og.header[i + 1]?
  let c ← og.header[i + 2]?
  let d ← og.header[i + 3]?
  return word32 a ||| (word32 b <<< 8) ||| (word32 c <<< 16) ||| (word32 d <<< 24)

/-- `ogg_page_serialno`: octets 14 to 17, which tell the streams of a file apart. -/
def serialno : Option (BitVec 32) := og.word 14

/-- `ogg_page_pageno`: octets 18 to 21, which count the pages of a stream. -/
def pageno : Option Nat := (og.word 18).map BitVec.toNat

/-- The segment table: as many octets behind octet 26 as that one says. -/
def table : Option Bytes := do
  let n ← og.header[26]?
  if og.header.length < 27 + n.toNat then none
  else some ((og.header.drop 27).take n.toNat)

/-- `ogg_page_packets`: the number of packets that end on the page, so of lacing values below
255. -/
def packets : Option Nat := do
  let table ← og.table
  return table.countP (· < 255)

/-- `ogg_page_checksum_set`: octets 22 to 25 become the remainder of the whole page, which is
computed with zeros in their place. The body comes behind the header. -/
def checksumSet : Option OggPage :=
  if og.header.length < 26 then none
  else
    let before := og.header.take 22
    let after := og.header.drop 26
    let crcReg := osUpdateCrc (osUpdateCrc 0 (before ++ [0, 0, 0, 0] ++ after)) og.body
    some { og with
      header := before ++
        [⟨(crcReg &&& 0xff).setWidth 8⟩, ⟨((crcReg >>> 8) &&& 0xff).setWidth 8⟩,
          ⟨((crcReg >>> 16) &&& 0xff).setWidth 8⟩, ⟨((crcReg >>> 24) &&& 0xff).setWidth 8⟩] ++
        after }

end OggPage

/-- `ogg_packet`. The two flags are the truth of `b_o_s` and `e_o_s`, which the source keeps as
numbers. -/
structure OggPacket where
  packet : Bytes
  bOS : Bool
  eOS : Bool
  granulepos : BitVec 64
  packetno : Nat
  deriving DecidableEq, Repr

/-! ### The state of a logical stream -/

/-- An entry of `lacing_vals` and the one of `granule_vals` beside it. The value is the low octet,
the flags are the bits `0x100`, `0x200` and `0x400`. -/
structure Lacing where
  val : UInt8
  bos : Bool
  eos : Bool
  gap : Bool
  granule : Option (BitVec 64)
  deriving DecidableEq, Repr

/-- `ogg_stream_state`. The fill marks are the lengths of the lists, and the two storages count the
cells that `body_data`, and `lacing_vals` and `granule_vals` have. `allocated` says that these three
are no null pointers. -/
structure OggStreamState where
  allocated : Bool
  bodyData : Bytes
  bodyStorage : Nat
  bodyReturned : Nat
  lacingVals : List Lacing
  lacingStorage : Nat
  lacingPacket : Nat
  lacingReturned : Nat
  eOS : Bool
  bOS : Bool
  serialno : BitVec 32
  pageno : Int
  packetno : Nat
  granulepos : BitVec 64
  deriving DecidableEq, Repr

namespace OggStreamState

/-- What `ogg_stream_clear` leaves: all fields are zero, so the three buffers are null pointers and
the check of the state fails. -/
def clear : OggStreamState := ⟨false, [], 0, 0, [], 0, 0, 0, false, false, 0, 0, 0, 0⟩

/-- What `ogg_stream_init` leaves if it returns zero: empty buffers of the first sizes, and page
number 0. -/
def fresh (serialno : BitVec 32) : OggStreamState :=
  ⟨true, [], 16 * 1024, 0, [], 1024, 0, 0, false, false, serialno, 0, 0, 0⟩

/-- `ogg_stream_init`, which returns -1 and leaves a cleared state if one of its three allocations
fails. -/
def init (alloc : Nat → Bool) (serialno : BitVec 32) : Int × OggStreamState :=
  if alloc (16 * 1024) && alloc (1024 * 4) && alloc (1024 * 8) then (0, fresh serialno)
  else (-1, clear)

variable (os : OggStreamState)

/-- `ogg_stream_check`. It looks at `body_data` alone, which is a null pointer only in a cleared
state, where the other two are, too. -/
def check : Int := if os.allocated then 0 else -1

/-- `ogg_stream_reset`. The storages are kept. No page is expected behind it, so the first one that
arrives is in sequence. -/
def reset : Int × OggStreamState :=
  if os.allocated then
    (0, { os with
      bodyData := []
      bodyReturned := 0
      lacingVals := []
      lacingPacket := 0
      lacingReturned := 0
      eOS := false
      bOS := false
      pageno := -1
      packetno := 0
      granulepos := 0 })
  else (-1, os)

/-- `ogg_stream_reset_serialno`: a reset that also changes the stream the state is for. -/
def resetSerialno (serialno : BitVec 32) : Int × OggStreamState :=
  if os.allocated then (0, { os.reset.2 with serialno := serialno }) else (-1, os)

/-- The storage that has room for `needed` cells behind the fill mark, with some to spare. There is
none if its number is too large for a `long`, or if it cannot be moved to a place of that size. -/
def expandStorage (realloc : Nat → Bool) (storage fill needed spare : Nat) : Option Nat :=
  if fill + needed < storage then some storage
  else if longMax < storage + needed then none
  else
    let storage := storage + needed
    let storage := if storage < longMax - spare then storage + spare else storage
    if realloc storage then some storage else none

/-- `_os_body_expand`. If it has no value the source clears the state and returns -1. The caller
passes how many octets it is going to store. -/
def bodyExpand (alloc : Nat → Bool) (needed : Nat) : Option OggStreamState :=
  (expandStorage alloc os.bodyStorage os.bodyData.length needed 1024).map fun storage =>
    { os with bodyStorage := storage }

/-- `_os_lacing_expand`. The values are of the type `int`, and the granule positions of a type of
eight octets. -/
def lacingExpand (alloc : Nat → Bool) (needed : Nat) : Option OggStreamState :=
  (expandStorage (fun storage => alloc (storage * 4) && alloc (storage * 8)) os.lacingStorage
    os.lacingVals.length needed 32).map fun storage => { os with lacingStorage := storage }

/-- The body data that was returned is dropped: what follows it is moved to the front of the buffer.
A returned mark behind the fill mark would be a move of a negative length. -/
def dropReturned : Option OggStreamState :=
  if os.bodyData.length < os.bodyReturned then none
  else some { os with bodyData := os.bodyData.drop os.bodyReturned, bodyReturned := 0 }

/-! ### Packets into pages -/

/-- The first loop of `ogg_stream_iovecin`: the length of all pieces, or `none` if it is too much
for a `long`. -/
def iovBytes : Nat → List Bytes → Option Nat
  | bytes, [] => some bytes
  | bytes, v :: iov =>
    if longMax < v.length ∨ longMax - v.length < bytes then none
    else iovBytes (bytes + v.length) iov

/-- The pieces behind the data, in a buffer with `storage` cells. The fill mark moves by
`(int)iov_len`, which is the length only if that is a number of an `int`. -/
def copyIov (storage : Nat) : Bytes → List Bytes → Option Bytes
  | data, [] => some data
  | data, v :: iov =>
    if v.length ≤ intMax ∧ data.length + v.length ≤ storage then copyIov storage (data ++ v) iov
    else none

/-- The lacing values of a packet: 255 for each full segment, and the rest. All but the last have
the granule position of the packet before, and the first one has the flag of a beginning. -/
def lacingOf (bytes : Nat) (before granulepos : BitVec 64) : List Lacing :=
  (List.replicate (bytes / 255) (Lacing.mk 255 false false false (some before)) ++
    [Lacing.mk (UInt8.ofNat (bytes % 255)) false false false (some granulepos)]).modifyHead
      fun l => { l with bos := true }

/-- The part of `ogg_stream_iovecin` that stores the packet. The loop over its lacing values counts
them with an `int`. -/
def storePacket (iov : List Bytes) (bytes : Nat) (eOS : Bool) (granulepos : BitVec 64) :
    Option OggStreamState :=
  match copyIov os.bodyStorage os.bodyData iov with
  | none => none
  | some data =>
    if intMax < bytes / 255 ∨ os.lacingStorage < os.lacingVals.length + (bytes / 255 + 1) then none
    else some { os with
      bodyData := data
      lacingVals := os.lacingVals ++ lacingOf bytes os.granulepos granulepos
      granulepos := granulepos
      packetno := os.packetno + 1
      eOS := os.eOS || eOS }

/-- `ogg_stream_iovecin`: a packet in pieces. It is copied behind the body data, and its lacing
values are appended. If a buffer cannot be expanded the state is cleared, with all that was
queued. -/
def iovecin (alloc : Nat → Bool) (iov : List Bytes) (eOS : Bool) (granulepos : BitVec 64) :
    Option (Int × OggStreamState) :=
  if os.allocated = false then some (-1, os)
  else
    match iovBytes 0 iov with
    | none => some (-1, os)
    | some bytes =>
      match os.dropReturned with
      | none => none
      | some os =>
        match (os.bodyExpand alloc bytes).bind fun os => os.lacingExpand alloc (bytes / 255 + 1) with
        | none => some (-1, clear)
        | some os => (os.storePacket iov bytes eOS granulepos).map fun os => (0, os)

/-- `ogg_stream_packetin`: a packet in one piece. Its flag `b_o_s` and its number are not looked
at. -/
def packetin (alloc : Nat → Bool) (op : OggPacket) : Option (Int × OggStreamState) :=
  os.iovecin alloc [op.packet] op.eOS op.granulepos

/-- The segments of the page with the initial header: those of one packet, as far as it is there. -/
def headerVals : List Lacing → Nat
  | [] => 0
  | l :: ls => if l.val < 255 then 1 else headerVals ls + 1

/-- How many segments the page gets, the granule position in its header, and whether it is forced.
A page is full if it has more than `nfill` octets and the last four packets or more end in it. -/
def pageVals (nfill : Int) (force : Bool) :
    (vals acc packetsDone packetJustDone : Nat) → Option (BitVec 64) → List Lacing →
      Nat × Option (BitVec 64) × Bool
  | vals, _, _, _, granulePos, [] => (vals, granulePos, force)
  | vals, acc, packetsDone, packetJustDone, granulePos, l :: ls =>
    if nfill < acc ∧ 4 ≤ packetJustDone then (vals, granulePos, true)
    else if l.val < 255 then
      pageVals nfill force (vals + 1) (acc + l.val.toNat) (packetsDone + 1) (packetsDone + 1)
        l.granule ls
    else pageVals nfill force (vals + 1) (acc + l.val.toNat) packetsDone 0 granulePos ls

/-- The low octets of a number, the lowest first. The source shifts a signed number to the right. -/
def octets {w : Nat} : Nat → BitVec w → Bytes
  | 0, _ => []
  | n + 1, x => ⟨x.setWidth 8⟩ :: octets n (x.sshiftRight 8)

/-- The header before the checksum is known, with zeros in the place of the checksum and the number
of the segments at its end. The segment table is appended to it. -/
def pageHeader (flags : UInt8) (granulePos : BitVec 64) (pageno : Int) (vals : Nat) : Bytes :=
  ascii "OggS" ++ [0x00, flags] ++ octets 8 granulePos ++ octets 4 (os.serialno.signExtend 64) ++
    octets 4 (BitVec.ofInt 64 pageno) ++ [0, 0, 0, 0] ++ [UInt8.ofNat vals] ++
    (os.lacingVals.take vals).map Lacing.val

/-- The part of `ogg_stream_flush_i` that makes a page of the first `vals` segments. The header is
an array of 282 octets. -/
def flushVals (vals : Nat) (granulePos : Option (BitVec 64)) :
    Option (Int × Option OggPage × OggStreamState) := do
  let first ← os.lacingVals.head?
  let flags : UInt8 := (if first.bos then 0x00 else 0x01) ||| (if os.bOS then 0x00 else 0x02) |||
    (if os.eOS ∧ os.lacingVals.length = vals then 0x04 else 0x00)
  let granulePos ← granulePos
  let pageno := if os.pageno = -1 then 0 else os.pageno
  let bytes := ((os.lacingVals.take vals).map fun l => l.val.toNat).sum
  if 282 < 27 + vals ∨ os.bodyData.length < os.bodyReturned + bytes then none
  else
    let og ← OggPage.checksumSet
      ⟨os.pageHeader flags granulePos pageno vals, (os.bodyData.drop os.bodyReturned).take bytes⟩
    return (1, some og, { os with
      bOS := true
      pageno := pageno + 1
      lacingVals := os.lacingVals.drop vals
      bodyReturned := os.bodyReturned + bytes })

/-- The decision of `ogg_stream_flush_i`: the number of segments, the granule position, and whether
the page is made. The first page has the initial header only. -/
def chooseVals (force : Bool) (nfill : Int) (lacing : List Lacing) :
    Nat × Option (BitVec 64) × Bool :=
  if os.bOS then
    let chosen := pageVals nfill force 0 0 0 0 (some (-1)) lacing
    (chosen.1, chosen.2.1, chosen.2.2 || chosen.1 == 255)
  else (headerVals lacing, some 0, force)

/-- `ogg_stream_flush_i`: the next page, if there are enough segments for one, or if it is forced.
The header is a buffer of 282 octets, so a page has at most 255 segments. -/
def flushI (force : Bool) (nfill : Int) : Option (Int × Option OggPage × OggStreamState) :=
  let lacing := os.lacingVals.take 255
  if os.allocated = false ∨ lacing.isEmpty then some (0, none, os)
  else
    let chosen := os.chooseVals force nfill lacing
    if chosen.2.2 then os.flushVals chosen.1 chosen.2.1 else some (0, none, os)

/-- `ogg_stream_flush_fill`: a page is made of what is there, of about `nfill` octets. -/
def flushFill (nfill : Int) : Option (Int × Option OggPage × OggStreamState) := os.flushI true nfill

/-- `ogg_stream_flush`: a page is made of what is there, if there is anything. -/
def flush : Option (Int × Option OggPage × OggStreamState) := os.flushI true 4096

/-- `ogg_stream_pageout_fill`. Its check of the state is the first one of `ogg_stream_flush_i`,
too. -/
def pageoutFill (nfill : Int) : Option (Int × Option OggPage × OggStreamState) :=
  os.flushI ((os.eOS && !os.lacingVals.isEmpty) || (!os.lacingVals.isEmpty && !os.bOS)) nfill

/-- `ogg_stream_pageout`: a page is made when there is enough for one, or at the beginning and the
end of the stream. -/
def pageout : Option (Int × Option OggPage × OggStreamState) :=
  os.flushI ((os.eOS && !os.lacingVals.isEmpty) || (!os.lacingVals.isEmpty && !os.bOS)) 4096

/-! ### Pages into packets -/

/-- The entries that were returned are dropped, and `lacing_packet` moves with them. -/
def dropLacing : Option OggStreamState :=
  if os.lacingVals.length < os.lacingReturned ∨ os.lacingPacket < os.lacingReturned then none
  else some { os with
    lacingVals := os.lacingVals.drop os.lacingReturned
    lacingPacket := os.lacingPacket - os.lacingReturned
    lacingReturned := 0 }

/-- What is left of a packet when the next page is missing is dropped, and the place is marked. The
fill mark of the body data moves back by the octets of the segments. -/
def unroll : Option OggStreamState :=
  let bytes := ((os.lacingVals.drop os.lacingPacket).map fun l => l.val.toNat).sum
  if os.lacingVals.length < os.lacingPacket ∨ os.bodyData.length < bytes then none
  else
    let os := { os with
      bodyData := os.bodyData.take (os.bodyData.length - bytes)
      lacingVals := os.lacingVals.take os.lacingPacket }
    if os.pageno = -1 then some os
    else if os.lacingStorage ≤ os.lacingVals.length then none
    else some { os with
      lacingVals := os.lacingVals ++ [⟨0, false, false, true, none⟩]
      lacingPacket := os.lacingPacket + 1 }

/-- There is no packet that the page could continue: the state holds no entry, or the last one is
not full, or it is the mark of a gap. -/
def noPartial : Bool :=
  match os.lacingVals.getLast? with
  | none => true
  | some l => l.val < 255 || l.val == 0 && !l.bos && !l.eos && l.gap

/-- The end of a packet at the head of a segment table: its octets, and what follows it. This is
what a page begins with when it continues a packet whose beginning is missing. -/
def skipPartial : Bytes → Nat × Bytes
  | [] => (0, [])
  | v :: vs => if v < 255 then (v.toNat, vs) else (v.toNat + (skipPartial vs).1, (skipPartial vs).2)

/-- The loop over the segment table. `saved` is the place of the last packet that is complete, which
gets the granule position of the page when the loop is over. -/
def segmentLoop : OggStreamState → Bool → Option Nat → Bytes → OggStreamState × Option Nat
  | os, _, saved, [] => (os, saved)
  | os, bos, saved, v :: vs =>
    let fill := os.lacingVals.length
    let os := { os with lacingVals := os.lacingVals ++ [⟨v, bos, false, false, some (-1)⟩] }
    if v < 255 then segmentLoop { os with lacingPacket := fill + 1 } false (some fill) vs
    else segmentLoop os false saved vs

/-- The granule position of the page is the one of its last packet that is complete. If no packet
ends on the page it is dropped. -/
def storeGranule (granulepos : BitVec 64) (saved : Option Nat) (lacingVals : List Lacing) :
    List Lacing :=
  match saved with
  | none => lacingVals
  | some i => lacingVals.modify i fun l => { l with granule := some granulepos }

/-- The last segment of the stream is marked. It is the last one that is stored, also when the page
has none. -/
def markEos (eos : Bool) (lacingVals : List Lacing) : List Lacing :=
  if eos then lacingVals.modify (lacingVals.length - 1) fun l => { l with eos := true }
  else lacingVals

/-- The segments that are stored: their octets, the segment table and the flags of the page. The
octets and the entries go to the cells behind the two fill marks. -/
def storePage (body table : Bytes) (bos eos : Bool) (granulepos : BitVec 64) (pageno : Nat) :
    Option OggStreamState :=
  if os.bodyStorage < os.bodyData.length + body.length ∨
      os.lacingStorage < os.lacingVals.length + table.length then none
  else
    let stored := segmentLoop { os with bodyData := os.bodyData ++ body } bos none table
    some { stored.1 with
      lacingVals := markEos eos (storeGranule granulepos stored.2 stored.1.lacingVals)
      eOS := os.eOS || eos
      pageno := pageno + 1 }

/-- Is the page in sequence? If it is not, what is left of a packet is dropped and the place is
marked. -/
def inSequence (pageno : Nat) : Option OggStreamState :=
  if (pageno : Int) = os.pageno then some os else os.unroll

/-- The part of `ogg_stream_pagein` that stores the page, when there are entries for its segments
and for the mark of a gap. -/
def acceptPage (alloc : Nat → Bool) (og : OggPage) (continued bos eos : Bool)
    (granulepos : BitVec 64) (pageno : Nat) : Option (Int × OggStreamState) :=
  match og.table, os.inSequence pageno with
  | some table, some os =>
    let skips := continued && os.noPartial
    let skipped := if skips then skipPartial table else (0, table)
    if og.body.length < skipped.1 then none
    else
      let body := og.body.drop skipped.1
      match if body.isEmpty then some os else os.bodyExpand alloc body.length with
      | none => some (-1, clear)
      | some os =>
        (os.storePage body skipped.2 (bos && !skips) eos granulepos pageno).map fun os => (0, os)
  | _, _ => none

/-- The part of `ogg_stream_pagein` behind the checks. The places of the entries are kept in an
`int` there and in `_packetout`. -/
def takePage (alloc : Nat → Bool) (og : OggPage) (continued bos eos : Bool)
    (granulepos : BitVec 64) (pageno segments : Nat) : Option (Int × OggStreamState) :=
  match os.lacingExpand alloc (segments + 1) with
  | none => some (-1, clear)
  | some os =>
    if intMax < os.lacingVals.length + (segments + 1) then none
    else os.acceptPage alloc og continued bos eos granulepos pageno

/-- `ogg_stream_pagein`: the segments of a page are stored. Pages of another stream or version are
refused. A failed allocation clears the state. -/
def pagein (alloc : Nat → Bool) (og : OggPage) : Option (Int × OggStreamState) := do
  let version ← og.version
  let continued ← og.continued
  let bos ← og.bos
  let eos ← og.eos
  let granulepos ← og.granulepos
  let serialno ← og.serialno
  let pageno ← og.pageno
  let segments ← og.header[26]?
  if os.allocated = false then return (-1, os)
  let os ← os.dropReturned
  let os ← os.dropLacing
  if serialno ≠ os.serialno then return (-1, os)
  else if 0 < version then return (-1, os)
  else os.takePage alloc og continued bos eos granulepos pageno segments.toNat

/-- A packet at the head of the lacing values: the number of its segments and of its octets,
whether the stream ends with it, and its granule position. -/
def gather : List Lacing → Option (Nat × Nat × Bool × Option (BitVec 64))
  | [] => none
  | l :: ls =>
    if l.val = 255 then do
      let (segments, bytes, eos, granule) ← gather ls
      return (segments + 1, l.val.toNat + bytes, l.eos || eos, granule)
    else some (1, l.val.toNat, l.eos, l.granule)

/-- The fields of the packet at the head of the queue. Its octets are in the body data from the
returned mark on, and one that is too long for them would be a read outside of the buffer. -/
def fillPacket (first : Lacing) (bytes : Nat) (eos : Bool) (granule : Option (BitVec 64)) :
    Option OggPacket := do
  let granule ← granule
  if os.bodyData.length < os.bodyReturned + bytes then none
  else
    some ⟨(os.bodyData.drop os.bodyReturned).take bytes, first.bos, eos, granule, os.packetno⟩

/-- `_packetout`. `op` says whether the caller wants the packet, and `adv` whether it is taken. A
gap is reported once, with -1. -/
def packetoutI (op adv : Bool) : Option (Int × Option OggPacket × OggStreamState) :=
  if os.lacingPacket ≤ os.lacingReturned then some (0, none, os)
  else do
    let first ← os.lacingVals[os.lacingReturned]?
    if first.gap then
      some (-1, none,
        { os with lacingReturned := os.lacingReturned + 1, packetno := os.packetno + 1 })
    else if !op && !adv then some (1, none, os)
    else
      let (segments, bytes, eos, granule) ← gather (os.lacingVals.drop os.lacingReturned)
      let packet ← if op then (os.fillPacket first bytes eos granule).map some else some none
      return (1, packet, if adv then { os with
          bodyReturned := os.bodyReturned + bytes
          lacingReturned := os.lacingReturned + segments
          packetno := os.packetno + 1 }
        else os)

/-- `ogg_stream_packetout`: the next packet is taken. -/
def packetout (op : Bool) : Option (Int × Option OggPacket × OggStreamState) :=
  if os.allocated = false then some (0, none, os) else os.packetoutI op true

/-- `ogg_stream_packetpeek`: the next packet is looked at. -/
def packetpeek (op : Bool) : Option (Int × Option OggPacket × OggStreamState) :=
  if os.allocated = false then some (0, none, os) else os.packetoutI op false

end OggStreamState

/-! ### Pages in a stream of bytes -/

/-- `ogg_sync_state`. The fill mark is the length of `data`. The storage is an `int`, and a number
of octets that is none is stored as another one. -/
structure OggSyncState where
  data : Bytes
  storage : Int
  returned : Nat
  unsynced : Bool
  headerbytes : Nat
  bodybytes : Nat
  deriving DecidableEq, Repr

namespace OggSyncState

/-- What `ogg_sync_init` and `ogg_sync_clear` leave: all fields are zero. No buffer is allocated
yet. -/
def init : OggSyncState := ⟨[], 0, 0, false, 0, 0⟩

/-- The `int` that a `long` is converted to: its low 32 bits, as a signed number. So a length from
`2 ^ 31` on becomes another number. -/
def toInt (x : Int) : Int := (BitVec.ofInt 32 x).toInt

variable (oy : OggSyncState)

/-- `ogg_sync_check`. The storage is negative only in a state that was made unusable. -/
def check : Int := if oy.storage < 0 then -1 else 0

/-- `ogg_sync_reset`: what is in the buffer is dropped, and the buffer is kept. -/
def reset : Int × OggSyncState :=
  if oy.storage < 0 then (-1, oy) else (0, ⟨[], oy.storage, 0, false, 0, 0⟩)

/-- The part of `ogg_sync_buffer` that makes room for `size` octets, a `long`. It returns whether
there is a pointer to them. Octets that are in the buffer and not in the new one are lost, a
fault. -/
def extend (alloc : Nat → Bool) (size : Int) : Option (Bool × OggSyncState) :=
  if oy.storage - oy.data.length < size then
    let newsize := size + oy.data.length + 4096
    if longMax < newsize ∨ newsize < oy.data.length then none
    else if alloc newsize.toNat then some (true, { oy with storage := toInt newsize })
    else some (false, init)
  else some (true, oy)

/-- `ogg_sync_buffer`, which returns a null pointer and leaves a cleared state if the allocation
fails. -/
def buffer (alloc : Nat → Bool) (size : Int) : Option (Bool × OggSyncState) :=
  if oy.storage < 0 then some (false, oy)
  else if oy.data.length < oy.returned then none
  else extend { oy with data := oy.data.drop oy.returned, returned := 0 } alloc size

/-- `ogg_sync_wrote`, when the caller stored these octets in the buffer. More octets than there is
room for are refused. -/
def wrote (bytes : Bytes) : Int × OggSyncState :=
  if oy.storage < 0 ∨ oy.storage < oy.data.length + bytes.length then (-1, oy)
  else (0, { oy with data := oy.data ++ bytes })

/-- How the test of the header at the head of the data ends: more octets are needed, there is no
page here, or its sizes are known. -/
inductive Seek
  | wait
  | fail
  | found (headerbytes bodybytes : Nat)

/-- The sizes of the page are taken from its header, once. They are kept until the page is returned,
or turns out to be none. -/
def seekHeader (page : Bytes) : Option Seek :=
  if oy.headerbytes ≠ 0 then some (.found oy.headerbytes oy.bodybytes)
  else if page.length < 27 then some .wait
  else if page.take 4 ≠ ascii "OggS" then some .fail
  else
    match page[26]? with
    | none => none
    | some n =>
      let headerbytes := n.toNat + 27
      if page.length < headerbytes then some .wait
      else
        let table := (page.drop 27).take n.toNat
        some (.found headerbytes (oy.bodybytes + (table.map UInt8.toNat).sum))

/-- `sync_fail`: the search goes on at the next `O`, or behind the data if there is none. It returns
the number of octets that are skipped, as a negative number. -/
def syncFail (page : Bytes) : Option (Int × Option OggPage × OggSyncState) :=
  match page with
  | [] => none
  | _ :: rest =>
    let skipped := 1 + (rest.takeWhile (· ≠ 0x4f)).length
    some (-skipped, none,
      { oy with headerbytes := 0, bodybytes := 0, returned := oy.returned + skipped })

/-- `ogg_sync_pageseek`: the page at the head of the data is returned if it is complete and its
checksum is right, and the octets that are none are skipped. -/
def pageseek : Option (Int × Option OggPage × OggSyncState) :=
  if oy.data.length < oy.returned then none
  else if oy.storage < 0 then some (0, none, oy)
  else
    let page := oy.data.drop oy.returned
    match oy.seekHeader page with
    | none => none
    | some .wait => some (0, none, oy)
    | some .fail => oy.syncFail page
    | some (.found headerbytes bodybytes) =>
      if page.length < bodybytes + headerbytes then
        some (0, none, { oy with headerbytes := headerbytes, bodybytes := bodybytes })
      else
        let log : OggPage := ⟨page.take headerbytes, (page.drop headerbytes).take bodybytes⟩
        match log.checksumSet with
        | none => none
        | some og =>
          if (log.header.drop 22).take 4 ≠ (og.header.drop 22).take 4 then oy.syncFail page
          else some ((headerbytes + bodybytes : Nat), some og,
            { oy with
              unsynced := false
              returned := oy.returned + (headerbytes + bodybytes)
              headerbytes := 0
              bodybytes := 0 })

variable {oy}

/-- A search that goes on leaves the octets as they are and moves forward, so a run of them ends. -/
theorem syncFail_progress {page : Bytes} {ret : Int} {og : Option OggPage} {oy' : OggSyncState}
    (h : oy.syncFail page = some (ret, og, oy')) :
    page ≠ [] ∧ oy'.data = oy.data ∧ oy.returned < oy'.returned := by
  unfold syncFail at h
  split at h
  · cases h
  · cases h
    exact ⟨List.cons_ne_nil _ _, rfl, by show oy.returned < oy.returned + (1 + _); omega⟩

/-- A seek that fails skips something. -/
theorem pageseek_progress {ret : Int} {og : Option OggPage} {oy' : OggSyncState}
    (h : oy.pageseek = some (ret, og, oy')) (hret : ret < 0) :
    oy'.data.length - oy'.returned < oy.data.length - oy.returned := by
  have hfail : oy.syncFail (oy.data.drop oy.returned) = some (ret, og, oy') →
      oy'.data.length - oy'.returned < oy.data.length - oy.returned := by
    intro h
    obtain ⟨hpage, hdata, hreturned⟩ := syncFail_progress h
    have hlt : oy.returned < oy.data.length := by
      by_contra hle
      exact hpage (List.drop_eq_nil_of_le (Nat.le_of_not_lt hle))
    rw [hdata]
    omega
  -- Only the jumps to `sync_fail` return less than zero.
  unfold pageseek at h
  split at h
  · cases h
  · split at h
    · cases h
      omega
    simp only at h
    split at h
    · cases h
    · cases h
      omega
    · exact hfail h
    · split at h
      · cases h
        omega
      · split at h
        · cases h
        · split at h
          · exact hfail h
          · cases h
            omega

/-- `ogg_sync_pageout`: the search is repeated until there is a page or more octets are needed. A
skip is reported once. Its check of the state is the first one of `ogg_sync_pageseek`, too. -/
def pageout (oy : OggSyncState) : Option (Int × Option OggPage × OggSyncState) :=
  match h : oy.pageseek with
  | none => none
  | some (ret, og, oy') =>
    if 0 < ret then some (1, og, oy')
    else if ret = 0 then some (0, none, oy')
    else if hret : oy'.unsynced = false then some (-1, none, { oy' with unsynced := true })
    else pageout oy'
  termination_by oy.data.length - oy.returned
  decreasing_by exact pageseek_progress h (by omega)

end OggSyncState

end TSubSpec.Ogg
