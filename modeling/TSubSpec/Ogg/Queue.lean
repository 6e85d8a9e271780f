import TSubSpec.Ogg.Pages

/-!
# `TSubSpec.Ogg.Queue`: the segments in a stream state

A stream state holds a queue of segments: their octets in `body_data`, their sizes, flags and
granule positions in `lacing_vals` and `granule_vals`. `Queued` says so, that these have cells for
what they hold, and that `lacing_packet` marks the end of the last packet that is complete.
`pagein_spec` and `packetoutI_eq` say what a page and a packet do to the queue. A page whose
allocation fails leaves a cleared state.
-/

set_option autoImplicit false

namespace TSubSpec.Ogg

open TSubSpec.Lib Lacing

/-- A segment with its flags: whether it begins the stream, whether it ends it, and whether it is
only the mark of a gap. The granule position is `none` where the state holds no value that has been
set. -/
structure Segment where
  bytes : Bytes
  bos : Bool
  eos : Bool
  gap : Bool
  granule : Option (BitVec 64)

namespace Segment

/-- The segment is the last of its packet: it is shorter than 255 octets. -/
def ends (s : Segment) : Bool := short s.bytes

/-- What is stored of the segment beside its octets. In the source these are the low octet of an
`int`, the flags in the next bits of it, and an entry of `granule_vals`. -/
def lacing (s : Segment) : Lacing := ⟨UInt8.ofNat s.bytes.length, s.bos, s.eos, s.gap, s.granule⟩

/-- The mark of a place where pages are missing. It has no octets, so by its size it is a packet of
its own, and the flag tells it from an empty packet. -/
def missing : Segment := ⟨[], false, false, true, none⟩

/-- The size can be stored, since the lacing value of a segment is an octet. -/
def Fits (s : Segment) : Prop := s.bytes.length ≤ 255

variable {s : Segment}

/-- The lacing value of a segment whose size can be stored is its size. A longer segment would be
stored modulo 256. -/
theorem Fits.toNat_val (h : s.Fits) : s.lacing.val.toNat = s.bytes.length :=
  UInt8.toNat_ofNat_of_lt' (Nat.lt_succ_of_le h)

/-- The test of `packetout` on a lacing value finds exactly the segments that end a packet. -/
theorem Fits.val_lt (h : s.Fits) : s.lacing.val < 255 ↔ s.ends = true := by
  rw [UInt8.lt_iff_toNat_lt, h.toNat_val, ends, short, decide_eq_true_iff]
  rfl

/-- The lacing values of a queue add up to its octets, so `body_data` is cut where the segments
are. -/
theorem sum_vals {queue : List Segment} (h : ∀ s ∈ queue, s.Fits) :
    ((queue.map lacing).map fun l => l.val.toNat).sum = (queue.flatMap bytes).length := by
  induction queue with
  | nil => rfl
  | cons s queue ih =>
    rw [List.map_cons, List.map_cons, List.sum_cons, List.flatMap_cons, List.length_append,
      (h s List.mem_cons_self).toNat_val, ih fun t ht => h t (List.mem_cons_of_mem _ ht)]

end Segment

open Segment

/-! ### Storage -/

/-- A storage that was expanded has the room that was asked for, if it had room for what is in
it. -/
theorem le_expandStorage {realloc : Nat → Bool} {storage fill needed spare storage' : Nat}
    (h : OggStreamState.expandStorage realloc storage fill needed spare = some storage')
    (hfill : fill ≤ storage) : fill + needed ≤ storage' := by
  unfold OggStreamState.expandStorage at h
  by_cases hroom : fill + needed < storage
  · rw [if_pos hroom] at h
    cases h
    exact Nat.le_of_lt hroom
  · rw [if_neg hroom] at h
    by_cases hmax : longMax < storage + needed
    · rw [if_pos hmax] at h
      cases h
    · rw [if_neg hmax] at h
      simp only [Option.ite_none_right_eq_some, Option.some.injEq] at h
      obtain ⟨-, rfl⟩ := h
      split <;> omega

/-! ### The queue -/

/-- The state holds the queue, in cells that are allocated. -/
structure Queued (os : OggStreamState) (queue : List Segment) : Prop where
  allocated : os.allocated = true
  bodyRoom : os.bodyData.length ≤ os.bodyStorage
  lacingRoom : os.lacingVals.length ≤ os.lacingStorage
  fits : ∀ s ∈ queue, s.Fits
  lacing : os.lacingVals.drop os.lacingReturned = queue.map Segment.lacing
  body : os.bodyData.drop os.bodyReturned = queue.flatMap Segment.bytes
  lacingReturned : os.lacingReturned ≤ os.lacingVals.length
  bodyReturned : os.bodyReturned ≤ os.bodyData.length
  packet : os.lacingPacket + (rest ends queue).length = os.lacingReturned + queue.length

namespace Queued

variable {os : OggStreamState} {queue : List Segment}

/-- Removing the octets that were returned leaves those of the queue. The test for a negative length
does not fire, since no more octets are returned than there are. -/
theorem dropReturned (h : Queued os queue) :
    os.dropReturned = some { os with
      bodyData := queue.flatMap Segment.bytes, bodyReturned := 0 } := by
  unfold OggStreamState.dropReturned
  rw [if_neg (Nat.not_lt.mpr h.bodyReturned), h.body]

/-- The queue is a part of what the buffers hold: before it stand the octets and the entries that
were already returned. -/
theorem length_le (h : Queued os queue) :
    (queue.flatMap Segment.bytes).length ≤ os.bodyStorage ∧
      queue.length ≤ os.lacingVals.length := by
  have hbody := congrArg List.length h.body
  have hlacing := congrArg List.length h.lacing
  have hroom := h.bodyRoom
  rw [List.length_drop] at hbody
  rw [List.length_drop, List.length_map] at hlacing
  omega

/-- A queue is its complete packets and the unfinished rest. -/
theorem length_rest (queue : List Segment) :
    ((groups ends queue).flatten).length + (rest ends queue).length = queue.length := by
  rw [← List.length_append, flatten_groups]

/-- The entries up to `lacing_packet` are those of the complete packets. So there is a packet to
return exactly if this mark is behind the entries that were returned. -/
theorem lacingPacket (h : Queued os queue) :
    os.lacingPacket = os.lacingReturned + ((groups ends queue).flatten).length := by
  have hpacket := h.packet
  have hlength := length_rest queue
  omega

/-- Removing the entries that were returned leaves those of the queue, with `lacing_packet` moved
along. -/
theorem dropLacing (h : Queued os queue) :
    os.dropLacing = some { os with
      lacingVals := queue.map Segment.lacing
      lacingPacket := ((groups ends queue).flatten).length
      lacingReturned := 0 } := by
  have hreturned := h.lacingReturned
  have hpacket := h.lacingPacket
  unfold OggStreamState.dropLacing
  rw [if_neg (by omega), h.lacing, hpacket, Nat.add_sub_cancel_left]

end Queued

namespace OggStreamState

/-- A state with nothing that was returned: the octets and the entries of the queue stand at the
front of the buffers. This is the state that `pagein` works on. -/
def withQueue (os : OggStreamState) (queue : List Segment) : OggStreamState :=
  { os with
    bodyData := queue.flatMap Segment.bytes
    bodyReturned := 0
    lacingVals := queue.map Segment.lacing
    lacingPacket := ((groups ends queue).flatten).length
    lacingReturned := 0 }

variable {os : OggStreamState} {queue : List Segment}

/-- A state with room for the queue holds it. What the state held before does not matter. -/
theorem queued_withQueue (hallocated : os.allocated = true)
    (hbody : (queue.flatMap Segment.bytes).length ≤ os.bodyStorage)
    (hlacing : queue.length ≤ os.lacingStorage) (hfits : ∀ s ∈ queue, s.Fits) :
    Queued (os.withQueue queue) queue where
  allocated := hallocated
  bodyRoom := hbody
  lacingRoom := by
    show (queue.map Segment.lacing).length ≤ os.lacingStorage
    rwa [List.length_map]
  fits := hfits
  lacing := rfl
  body := rfl
  lacingReturned := Nat.zero_le _
  bodyReturned := Nat.zero_le _
  packet := (Queued.length_rest queue).trans (Nat.zero_add _).symm

/-- A state whose buffers are empty holds the empty queue. It needs no room for it. -/
theorem queued_nil (hallocated : os.allocated = true) (hbody : os.bodyData = [])
    (hbodyReturned : os.bodyReturned = 0) (hlacing : os.lacingVals = [])
    (hlacingReturned : os.lacingReturned = 0) (hpacket : os.lacingPacket = 0) : Queued os [] where
  allocated := hallocated
  bodyRoom := by
    rw [hbody]
    exact Nat.zero_le _
  lacingRoom := by
    rw [hlacing]
    exact Nat.zero_le _
  fits := fun _ hs => absurd hs List.not_mem_nil
  lacing := by
    rw [hlacing, hlacingReturned]
    rfl
  body := by
    rw [hbody, hbodyReturned]
    rfl
  lacingReturned := by
    rw [hlacingReturned]
    exact Nat.zero_le _
  bodyReturned := by
    rw [hbodyReturned]
    exact Nat.zero_le _
  packet := by
    rw [hpacket, hlacingReturned]
    rfl

/-- A new state holds nothing. -/
theorem queued_fresh (serialno : BitVec 32) : Queued (fresh serialno) [] :=
  queued_nil rfl rfl rfl rfl rfl rfl

/-- A reset empties the buffers, and keeps their storages. No page is expected, and the numbers of
the packets begin again. -/
theorem queued_reset (h : os.allocated = true) :
    Queued os.reset.2 [] ∧ os.reset.2.pageno = -1 ∧ os.reset.2.packetno = 0 := by
  unfold reset
  rw [if_pos h]
  exact ⟨queued_nil h rfl rfl rfl rfl rfl, rfl, rfl⟩

/-- A reset to another stream empties the state and forgets the page and packet numbers. -/
theorem queued_resetSerialno (h : os.allocated = true) (serialno : BitVec 32) :
    Queued (os.resetSerialno serialno).2 [] ∧ (os.resetSerialno serialno).2.pageno = -1 ∧
      (os.resetSerialno serialno).2.packetno = 0 := by
  unfold resetSerialno reset
  rw [if_pos h, if_pos h]
  exact ⟨queued_nil h rfl rfl rfl rfl rfl, rfl, rfl⟩

/-- A reset does not bring back a state that was cleared: it empties the buffers, and allocates
none. -/
theorem allocated_of_reset (h : os.reset.2.allocated = true) : os.allocated = true := by
  unfold reset at h
  split at h <;> exact h

/-- A reset does not bring a cleared state back: one that is allocated behind it was so before. -/
theorem allocated_of_resetSerialno {serialno : BitVec 32}
    (h : (os.resetSerialno serialno).2.allocated = true) : os.allocated = true := by
  unfold resetSerialno at h
  split at h
  · exact allocated_of_reset h
  · exact h

/-- The check of a state succeeds exactly on one whose buffers are allocated. -/
theorem check_eq_zero : os.check = 0 ↔ os.allocated = true := by
  unfold check
  cases os.allocated <;> decide

/-- `ogg_stream_init` leaves a new state or a cleared one. It is cleared if one of the two
allocations fails. -/
theorem init_allocated {alloc : Nat → Bool} {serialno : BitVec 32}
    (h : (init alloc serialno).2.allocated = true) : (init alloc serialno).2 = fresh serialno := by
  unfold init at h ⊢
  split
  · rfl
  · next hrefused =>
    rw [if_neg hrefused] at h
    cases h

/-- A state that was set to a queue holds the queue. -/
theorem queued_clean (h : Queued os queue) : Queued (os.withQueue queue) queue :=
  queued_withQueue h.allocated h.length_le.1 (Nat.le_trans h.length_le.2 h.lacingRoom) h.fits

/-- Without its beginning the packet in progress is dropped, and the place is marked, except behind
a reset, where no page is expected. -/
def resumed (os : OggStreamState) (queue : List Segment) : List Segment :=
  (groups ends queue).flatten ++ if os.pageno = -1 then [] else [missing]

/-- The mark of missing pages is a packet of its own. -/
theorem isGroup_missing : IsGroup ends [missing] :=
  ⟨[], missing, rfl, fun _ h => absurd h List.not_mem_nil, rfl⟩

/-- The complete packets behind missing pages: those that were complete before, and, unless no page
was expected, the mark of the gap. No unfinished packet is left. -/
theorem groups_resumed (os : OggStreamState) (queue : List Segment) :
    groups ends (os.resumed queue) =
        groups ends queue ++ (if os.pageno = -1 then [] else [[missing]]) ∧
      rest ends (os.resumed queue) = [] := by
  have hgroups : ∀ g ∈ groups ends queue ++ (if os.pageno = -1 then [] else [[missing]]),
      IsGroup ends g := by
    intro g hg
    rcases List.mem_append.mp hg with hg | hg
    · exact isGroup_of_mem hg
    · split at hg
      · exact absurd hg List.not_mem_nil
      · obtain rfl := List.mem_singleton.mp hg
        exact isGroup_missing
  have hresumed : os.resumed queue =
      (groups ends queue ++ (if os.pageno = -1 then [] else [[missing]])).flatten := by
    unfold resumed
    rw [List.flatten_append]
    split <;> rfl
  rw [hresumed]
  exact ⟨groups_flatten hgroups, rest_flatten hgroups⟩

/-- The mark of missing pages fits, and the other segments are among those of the queue. -/
theorem fits_resumed (hfits : ∀ s ∈ queue, s.Fits) : ∀ s ∈ os.resumed queue, s.Fits := by
  intro s hs
  rcases List.mem_append.mp hs with hs | hs
  · obtain ⟨g, hg, hs⟩ := List.mem_flatten.mp hs
    exact hfits s (mem_of_mem_groups hg hs)
  · split at hs
    · exact absurd hs List.not_mem_nil
    · obtain rfl := List.mem_singleton.mp hs
      exact Nat.zero_le 255

/-- A queue is its complete packets and the packet in progress, in whatever is mapped over it. -/
theorem map_complete {γ : Type} (f : Segment → γ) (queue : List Segment) :
    queue.map f = (groups ends queue).flatten.map f ++ (rest ends queue).map f := by
  rw [← List.map_append, flatten_groups]

/-- The octets of a queue are those of its complete packets and those of the rest. -/
theorem flatMap_complete (queue : List Segment) :
    queue.flatMap Segment.bytes =
      (groups ends queue).flatten.flatMap Segment.bytes ++
        (rest ends queue).flatMap Segment.bytes := by
  rw [← List.flatMap_append, flatten_groups]

/-- The packet in progress is dropped, and there is an entry for the mark. The loop takes the octets
of the packet off the fill mark, so the octets before it stay. -/
theorem unroll_withQueue (hfits : ∀ s ∈ queue, s.Fits) (hroom : queue.length < os.lacingStorage) :
    (os.withQueue queue).unroll = some (os.withQueue (os.resumed queue)) := by
  have hrest : ∀ s ∈ rest ends queue, s.Fits := fun s hs => hfits s (mem_of_mem_rest hs)
  have hlength : ((groups ends queue).flatten.map Segment.lacing).length =
      (groups ends queue).flatten.length := List.length_map _
  -- The complete packets stand in front, and `lacing_packet` points behind them.
  have hdrop : (queue.map Segment.lacing).drop (groups ends queue).flatten.length =
      (rest ends queue).map Segment.lacing := by
    rw [map_complete, ← hlength, List.drop_left]
  have htake : (queue.map Segment.lacing).take (groups ends queue).flatten.length =
      (groups ends queue).flatten.map Segment.lacing := by
    rw [map_complete, ← hlength, List.take_left]
  have hle : (groups ends queue).flatten.length ≤ (queue.map Segment.lacing).length := by
    rw [List.length_map, ← Queued.length_rest queue]
    exact Nat.le_add_right _ _
  have hbody : (queue.flatMap Segment.bytes).take ((queue.flatMap Segment.bytes).length -
      ((rest ends queue).flatMap Segment.bytes).length) =
        (groups ends queue).flatten.flatMap Segment.bytes := by
    rw [flatMap_complete, List.length_append, Nat.add_sub_cancel, List.take_left]
  have hsum : ((rest ends queue).flatMap Segment.bytes).length ≤
      (queue.flatMap Segment.bytes).length := by
    rw [flatMap_complete queue, List.length_append]
    exact Nat.le_add_left _ _
  have hcomplete := Queued.length_rest queue
  unfold unroll withQueue
  simp only [hdrop, sum_vals hrest, hbody, htake]
  -- Neither of the two subtractions goes below zero, and there is an entry for the mark.
  rw [if_neg (not_or.mpr ⟨Nat.not_lt.mpr hle, Nat.not_lt.mpr hsum⟩), (groups_resumed os queue).1,
    List.length_map, if_neg (show ¬os.lacingStorage ≤ (groups ends queue).flatten.length by omega)]
  unfold resumed
  -- No mark is put if the stream has not begun.
  split
  · simp only [List.append_nil]
  · have hmissing : [missing].flatMap Segment.bytes = [] := rfl
    simp only [List.map_append, List.flatMap_append, List.flatten_append, List.length_append,
      hmissing, List.append_nil]
    rfl

/-- The last segment is full exactly if a packet is in progress. The code looks at this segment
alone. -/
theorem noPartial_withQueue (hfits : ∀ s ∈ queue, s.Fits) :
    (os.withQueue queue).noPartial = (rest ends queue).isEmpty := by
  unfold noPartial withQueue
  simp only [List.getLast?_map]
  rcases List.eq_nil_or_concat queue with rfl | ⟨init, s, rfl⟩
  · rfl
  · have hs : s.Fits := hfits s (by
      rw [List.concat_eq_append]
      exact List.mem_append_right _ List.mem_cons_self)
    rw [List.concat_eq_append, (split_concat init s).2, List.getLast?_concat, Option.map_some]
    show (decide (s.lacing.val < 255) || _) = _
    -- The code asks whether the last value is below 255, or there is none.
    by_cases hends : s.ends = true
    · rw [if_pos hends, decide_eq_true (hs.val_lt.mpr hends)]
      rfl
    · have hval : s.lacing.val.toNat = 255 := by
        have hle := hs
        have hlt : ¬s.bytes.length < 255 := fun h => hends (decide_eq_true h)
        rw [hs.toNat_val]
        unfold Fits at hle
        omega
      have hzero : (s.lacing.val == 0) = false := by
        rw [beq_eq_false_iff_ne]
        intro h
        rw [h] at hval
        cases hval
      rw [if_neg hends, decide_eq_false (fun h => hends (hs.val_lt.mp h)), hzero]
      cases rest ends init <;> rfl

/-! ### The segments of a page -/

/-- The segments of a page with the flags that they get. The granule position of the page goes to
the last segment that ends a packet; the others have the value -1. -/
def decorate (bos eos : Bool) (granulepos : BitVec 64) : List Bytes → List Segment
  | [] => []
  | b :: bs =>
    ⟨b, bos, eos && bs.isEmpty, false,
      some (if short b ∧ ∀ c ∈ bs, short c = false then granulepos else -1)⟩ ::
        decorate false eos granulepos bs

variable {bos eos : Bool} {granulepos : BitVec 64} {pieces : List Bytes}

/-- The flags of a page do not change its octets. -/
theorem map_bytes_decorate (pieces : List Bytes) (bos : Bool) :
    (decorate bos eos granulepos pieces).map Segment.bytes = pieces := by
  induction pieces generalizing bos with
  | nil => rfl
  | cons b bs ih => rw [decorate, List.map_cons, ih]

/-- The segments of a page fit, as its lacing values are octets. -/
theorem fits_decorate (hpieces : ∀ b ∈ pieces, b.length ≤ 255) :
    ∀ s ∈ decorate bos eos granulepos pieces, s.Fits := by
  intro s hs
  refine hpieces s.bytes ?_
  rw [← @map_bytes_decorate eos granulepos pieces bos]
  exact List.mem_map_of_mem hs

/-- What is left of a page whose first packet is left out: its flag of the beginning is lost with
that packet. -/
theorem behind_decorate (pieces : List Bytes) (bos : Bool) :
    behind ends (decorate bos eos granulepos pieces) =
      decorate false eos granulepos (behind short pieces) := by
  induction pieces generalizing bos with
  | nil => rfl
  | cons b bs ih =>
    rw [decorate, behind, behind, ih]
    show (if short b = true then _ else _) = _
    split <;> rfl

/-- One turn of the loop that leaves out the first packet: it ends at a piece that ends a packet and
adds up the octets it passes. -/
theorem skipPartial_cons {b : Bytes} (hb : b.length ≤ 255) (bs : List Bytes) :
    skipPartial (tableOf (b :: bs)) =
      if short b then (b.length, tableOf bs)
      else (b.length + (skipPartial (tableOf bs)).1, (skipPartial (tableOf bs)).2) := by
  show skipPartial (UInt8.ofNat b.length :: tableOf bs) = _
  rw [skipPartial, toNat_size hb]
  exact if_congr (size_lt hb) rfl rfl

/-- The loop over the table of a page whose first packet is left out. It stops behind the first
piece that ends a packet, and the octets that it passes are those of the pieces up to there. -/
theorem skipPartial_tableOf (hpieces : ∀ b ∈ pieces, b.length ≤ 255) :
    (skipPartial (tableOf pieces)).2 = tableOf (behind short pieces) ∧
      (skipPartial (tableOf pieces)).1 ≤ pieces.flatten.length ∧
      pieces.flatten.drop (skipPartial (tableOf pieces)).1 = (behind short pieces).flatten := by
  induction pieces with
  | nil => exact ⟨rfl, Nat.le_refl 0, rfl⟩
  | cons b bs ih =>
    obtain ⟨htable, hle, hdrop⟩ := ih fun c hc => hpieces c (List.mem_cons_of_mem _ hc)
    rw [skipPartial_cons (hpieces b List.mem_cons_self), behind, List.flatten_cons,
      List.length_append]
    split
    · exact ⟨rfl, Nat.le_add_right _ _, List.drop_left⟩
    · refine ⟨htable, Nat.add_le_add_left hle _, ?_⟩
      rw [← List.drop_drop, List.drop_left, hdrop]

/-- Changing the last entry of a list. -/
theorem modify_concat {γ : Type} (ls : List γ) (l : γ) (f : γ → γ) :
    (ls ++ [l]).modify ls.length f = ls ++ [f l] := by
  induction ls with
  | nil => rfl
  | cons m ls ih => exact congrArg (m :: ·) ih

/-- Changing an entry of the front part leaves the entries behind it. -/
theorem modify_append {ls ms : List Lacing} {i : Nat} (hi : i < ls.length) (f : Lacing → Lacing) :
    (ls ++ ms).modify i f = ls.modify i f ++ ms := by
  induction ls generalizing i with
  | nil => exact absurd hi (Nat.not_lt_zero i)
  | cons m ls ih =>
    cases i with
    | zero => rfl
    | succ i => exact congrArg (m :: ·) (ih (Nat.lt_of_succ_lt_succ hi))

/-- What the loop stores of a piece before it knows where the page's granule position belongs: the
granule position -1. -/
def unplaced (bos : Bool) (b : Bytes) : Lacing :=
  ⟨UInt8.ofNat b.length, bos, false, false, some (-1)⟩

/-- One turn of the loop. It appends the piece's entry; where the piece ends a packet, it also moves
`lacing_packet` behind the entry and remembers the entry's index. -/
theorem segmentLoop_cons (os : OggStreamState) (bos : Bool) (saved : Option Nat) {b : Bytes}
    (hb : b.length ≤ 255) (bs : List Bytes) :
    segmentLoop os bos saved (tableOf (b :: bs)) =
      if short b then
        segmentLoop { os with
          lacingVals := os.lacingVals ++ [unplaced bos b]
          lacingPacket := os.lacingVals.length + 1 } false (some os.lacingVals.length) (tableOf bs)
      else
        segmentLoop { os with lacingVals := os.lacingVals ++ [unplaced bos b] } false saved
          (tableOf bs) := by
  show segmentLoop os bos saved (UInt8.ofNat b.length :: tableOf bs) = _
  rw [segmentLoop]
  exact if_congr (size_lt hb) rfl rfl

/-- A granule position that goes to an earlier entry does not change the entry behind it. -/
theorem storeGranule_concat {ls : List Lacing} {saved : Option Nat}
    (hsaved : ∀ i ∈ saved, i < ls.length) (l : Lacing) :
    storeGranule granulepos saved (ls ++ [l]) = storeGranule granulepos saved ls ++ [l] := by
  cases saved with
  | none => rfl
  | some i => exact modify_append (hsaved i rfl) _

/-- Behind a piece that ends a packet, the page's granule position goes to this piece exactly if no
later piece ends a packet, which is where `decorate` puts it. -/
theorem storeGranule_short {b : Bytes} (hshort : short b = true) (ls : List Lacing) (bos : Bool)
    (bs : List Bytes) :
    storeGranule granulepos (if ∀ c ∈ bs, short c = false then some ls.length else none)
        (ls ++ [unplaced bos b]) ++ (decorate false false granulepos bs).map Segment.lacing =
      ls ++ (decorate bos false granulepos (b :: bs)).map Segment.lacing := by
  rw [decorate, List.map_cons]
  by_cases hall : ∀ c ∈ bs, short c = false
  · rw [if_pos hall, if_pos ⟨hshort, hall⟩]
    show (ls ++ [_]).modify ls.length _ ++ _ = ls ++ _
    rw [modify_concat, List.append_assoc]
    rfl
  · rw [if_neg hall, if_neg fun h => hall h.2]
    show ls ++ [_] ++ _ = ls ++ _
    rw [List.append_assoc]
    rfl

/-- A piece that does not end a packet keeps the granule position -1, and the page's goes where it
would go without the piece. -/
theorem storeGranule_open {b : Bytes} (hopen : short b = false) {ls : List Lacing}
    {saved : Option Nat} (hsaved : ∀ i ∈ saved, i < ls.length) (bos : Bool) (bs : List Bytes) :
    storeGranule granulepos saved (ls ++ [unplaced bos b]) ++
        (decorate false false granulepos bs).map Segment.lacing =
      storeGranule granulepos saved ls ++
        (decorate bos false granulepos (b :: bs)).map Segment.lacing := by
  have hkeep : ¬(short b = true ∧ ∀ c ∈ bs, short c = false) := by
    rw [hopen]
    exact fun h => Bool.false_ne_true h.1
  rw [decorate, List.map_cons, if_neg hkeep, storeGranule_concat hsaved, List.append_assoc]
  rfl

/-- A piece in front that does not end a packet belongs to the unfinished rest exactly if no later
piece ends one. -/
theorem length_rest_open {b : Bytes} (hopen : short b = false) (bs : List Bytes) :
    (rest short (b :: bs)).length =
      if ∀ c ∈ bs, short c = false then bs.length + 1 else (rest short bs).length := by
  by_cases hall : ∀ c ∈ bs, short c = false
  · have hcons : ∀ c ∈ b :: bs, short c = false := List.forall_mem_cons.mpr ⟨hopen, hall⟩
    rw [if_pos hall, rest_of_open hcons, List.length_cons]
  · obtain ⟨c, hc, hends⟩ : ∃ c ∈ bs, short c = true := by
      by_contra hnone
      exact hall fun c hc => Bool.eq_false_iff.mpr fun h => hnone ⟨c, hc, h⟩
    rw [if_neg hall, show b :: bs = [b] ++ bs from rfl, rest_append_of_mem hc hends]

/-- What the loop stores, with the granule position that is stored behind it: the entries of the
decorated pieces. Where no piece ends a packet, the position still goes to the entry that was
remembered before, and `lacing_packet` stays. -/
theorem segmentLoop_tableOf (os : OggStreamState) (bos : Bool) (saved : Option Nat)
    (hpieces : ∀ b ∈ pieces, b.length ≤ 255) (hsaved : ∀ i ∈ saved, i < os.lacingVals.length) :
    ∃ lacingVals packet,
      (segmentLoop os bos saved (tableOf pieces)).1 =
        { os with lacingVals := lacingVals, lacingPacket := packet } ∧
      storeGranule granulepos (segmentLoop os bos saved (tableOf pieces)).2 lacingVals =
        storeGranule granulepos (if ∀ b ∈ pieces, short b = false then saved else none)
          os.lacingVals ++ (decorate bos false granulepos pieces).map Segment.lacing ∧
      packet + (rest short pieces).length =
        (if ∀ b ∈ pieces, short b = false then os.lacingPacket else os.lacingVals.length) +
          pieces.length := by
  -- The induction is on the pieces, for every state: a turn changes the entries that come before.
  induction pieces generalizing os bos saved with
  | nil =>
    have hnone : ∀ b ∈ ([] : List Bytes), short b = false := fun _ h => absurd h List.not_mem_nil
    refine ⟨os.lacingVals, os.lacingPacket, rfl, ?_, ?_⟩
    · rw [if_pos hnone]
      exact (List.append_nil _).symm
    · rw [if_pos hnone]
      rfl
  | cons b bs ih =>
    have hbs : ∀ c ∈ bs, c.length ≤ 255 := fun c hc => hpieces c (List.mem_cons_of_mem _ hc)
    have hlast : ∀ i ∈ some os.lacingVals.length,
        i < (os.lacingVals ++ [unplaced bos b]).length := by
      intro i hi
      obtain rfl := Option.some.inj hi
      rw [List.length_append]
      exact Nat.lt_succ_self _
    have hearlier : ∀ i ∈ saved, i < (os.lacingVals ++ [unplaced bos b]).length := by
      intro i hi
      rw [List.length_append]
      exact Nat.lt_succ_of_lt (hsaved i hi)
    rw [segmentLoop_cons os bos saved (hpieces b List.mem_cons_self)]
    by_cases hshort : short b = true
    · have hsome : ¬∀ c ∈ b :: bs, short c = false := by
        intro h
        rw [h b List.mem_cons_self] at hshort
        cases hshort
      rw [if_pos hshort, if_neg hsome, if_neg hsome, rest_cons_of_ends hshort]
      obtain ⟨lacingVals, packet, hstate, hgranule, hpacket⟩ := ih { os with
        lacingVals := os.lacingVals ++ [unplaced bos b]
        lacingPacket := os.lacingVals.length + 1 } false (some os.lacingVals.length) hbs hlast
      refine ⟨lacingVals, packet, hstate, ?_, ?_⟩
      · rw [hgranule]
        exact storeGranule_short hshort os.lacingVals bos bs
      · -- Both readings of the conditional are the index behind the entry.
        rw [hpacket]
        show (if _ then os.lacingVals.length + 1 else (os.lacingVals ++ [_]).length) + bs.length =
          os.lacingVals.length + (bs.length + 1)
        rw [List.length_append, List.length_singleton, ite_self]
        omega
    · have hopen : short b = false := Bool.eq_false_iff.mpr hshort
      have hiff : (∀ c ∈ b :: bs, short c = false) ↔ ∀ c ∈ bs, short c = false := by
        rw [List.forall_mem_cons, hopen]
        exact and_iff_right rfl
      rw [if_neg hshort, if_congr hiff rfl rfl, if_congr hiff rfl rfl]
      obtain ⟨lacingVals, packet, hstate, hgranule, hpacket⟩ := ih { os with
        lacingVals := os.lacingVals ++ [unplaced bos b] } false saved hbs hearlier
      refine ⟨lacingVals, packet, hstate, ?_, ?_⟩
      · rw [hgranule]
        refine storeGranule_open hopen ?_ bos bs
        split
        · exact hsaved
        · exact fun i hi => absurd hi (Option.not_mem_none i)
      · rw [length_rest_open hopen, List.length_cons]
        by_cases hall : ∀ c ∈ bs, short c = false
        · rw [if_pos hall, rest_of_open hall] at hpacket
          rw [if_pos hall, if_pos hall]
          have hpacket' : packet + bs.length = os.lacingPacket + bs.length := hpacket
          omega
        · rw [if_neg hall, List.length_append, List.length_singleton] at hpacket
          rw [if_neg hall, if_neg hall, hpacket]
          omega

/-! ### Pages -/

/-- The last segment of the stream is marked. The code marks the last entry of the state, which on a
page without segments is one of an earlier page. -/
def markLast (eos : Bool) (queue : List Segment) : List Segment :=
  if eos then queue.modify (queue.length - 1) fun s => { s with eos := true } else queue

/-- A map that carries one change to another also carries the change at an index. -/
theorem map_modify {γ : Type} (f : Segment → Segment) (g : Segment → γ) (h : γ → γ)
    (hcomm : ∀ s, g (f s) = h (g s)) (queue : List Segment) (i : Nat) :
    (queue.modify i f).map g = (queue.map g).modify i h := by
  induction queue generalizing i with
  | nil => cases i <;> rfl
  | cons s queue ih =>
    cases i with
    | zero => exact congrArg (· :: queue.map g) (hcomm s)
    | succ i => exact congrArg (g s :: ·) (ih i)

/-- Marking the last segment marks the last entry of `lacing_vals`. -/
theorem map_lacing_markLast (eos : Bool) (queue : List Segment) :
    (markLast eos queue).map Segment.lacing = markEos eos (queue.map Segment.lacing) := by
  unfold markLast markEos
  split
  · rw [map_modify _ Segment.lacing (fun l => { l with eos := true }) (fun _ => rfl),
      List.length_map]
  · rfl

/-- The mark of the last segment does not change the octets. -/
theorem map_bytes_markLast (eos : Bool) (queue : List Segment) :
    (markLast eos queue).map Segment.bytes = queue.map Segment.bytes := by
  unfold markLast
  split
  · have h := map_modify (fun s : Segment => { s with eos := true }) Segment.bytes id
      (fun _ => rfl) queue (queue.length - 1)
    rwa [List.modify_id] at h
  · rfl

/-- The unfinished rest of the pieces and that of the segments are of one length. -/
theorem length_rest_map (queue : List Segment) :
    (rest short (queue.map Segment.bytes)).length = (rest ends queue).length := by
  rw [rest_map, List.length_map]
  rfl

/-- Which packets are complete depends on the octets only. -/
theorem length_complete (queue : List Segment) :
    (groups ends queue).flatten.length =
      (queue.map Segment.bytes).length - (rest short (queue.map Segment.bytes)).length := by
  have hlength := Queued.length_rest queue
  rw [length_rest_map, List.length_map]
  omega

/-- The queue before the segments of the page are stored: a page whose number was not expected drops
the packet in progress. -/
def before (os : OggStreamState) (info : PageInfo) (queue : List Segment) : List Segment :=
  if (info.pageno : Int) = os.pageno then queue else os.resumed queue

/-- The page continues a packet whose beginning is missing, so its pieces up to the end of this
packet are left out. -/
def skips (os : OggStreamState) (info : PageInfo) (queue : List Segment) : Bool :=
  info.continued && (rest ends (os.before info queue)).isEmpty

/-- The pieces of the page that are stored: all of them, or those behind the packet that is left
out. -/
def storedPieces (os : OggStreamState) (info : PageInfo) (queue : List Segment) : List Bytes :=
  if os.skips info queue then behind short info.pieces else info.pieces

/-- The queue with the segments of the page. On a continued page the first of them belong to the
packet in progress. -/
def accepted (os : OggStreamState) (info : PageInfo) (queue : List Segment) : List Segment :=
  markLast info.eos (os.before info queue ++
    decorate (info.bos && !os.skips info queue) false info.granulepos (os.storedPieces info queue))

/-- The pieces of a page are stored behind the queue, their octets and their entries, in cells that
are allocated. This is the end of `pagein`, when both buffers have been expanded. -/
theorem storePage_withQueue {eos : Bool} {pageno : Nat} (hpieces : ∀ b ∈ pieces, b.length ≤ 255)
    (hbodyRoom : (queue.flatMap Segment.bytes).length + pieces.flatten.length ≤ os.bodyStorage)
    (hlacingRoom : queue.length + pieces.length ≤ os.lacingStorage) :
    (os.withQueue queue).storePage pieces.flatten (tableOf pieces) bos eos granulepos pageno =
      some (withQueue { os with eOS := os.eOS || eos, pageno := pageno + 1 }
        (markLast eos (queue ++ decorate bos false granulepos pieces))) := by
  obtain ⟨lacingVals, packet, hstate, hgranule, hpacket⟩ := @segmentLoop_tableOf granulepos pieces
    { os.withQueue queue with
      bodyData := (os.withQueue queue).bodyData ++ pieces.flatten } bos none hpieces
    (fun i hi => absurd hi (Option.not_mem_none i))
  have hlacing : markEos eos (storeGranule granulepos
      (segmentLoop { os.withQueue queue with
        bodyData := (os.withQueue queue).bodyData ++ pieces.flatten } bos none
        (tableOf pieces)).2 lacingVals) =
      (markLast eos (queue ++ decorate bos false granulepos pieces)).map Segment.lacing := by
    rw [map_lacing_markLast, List.map_append, hgranule, ite_self]
    rfl
  have hbody : (queue.flatMap Segment.bytes) ++ pieces.flatten =
      (markLast eos (queue ++ decorate bos false granulepos pieces)).flatMap Segment.bytes := by
    rw [List.flatMap_def, List.flatMap_def, map_bytes_markLast, List.map_append, map_bytes_decorate,
      List.flatten_append]
  -- The mark of the last complete packet: it moves only if a piece of the page ends one.
  have hcount : packet = (groups ends
      (markLast eos (queue ++ decorate bos false granulepos pieces))).flatten.length := by
    rw [length_complete, map_bytes_markLast, List.map_append, map_bytes_decorate]
    have hlength := Queued.length_rest queue
    have hqueue := length_rest_map queue
    -- No packet ends on the page, so the packet in progress grows by all of its pieces.
    by_cases hall : ∀ b ∈ pieces, short b = false
    · rw [if_pos hall, rest_of_open hall] at hpacket
      have hpacket' : packet + pieces.length = (groups ends queue).flatten.length + pieces.length :=
        hpacket
      have hopen : ∀ b ∈ rest short (queue.map Segment.bytes) ++ pieces, short b = false := by
        intro b hb
        rcases List.mem_append.mp hb with hb | hb
        · exact rest_open hb
        · exact hall b hb
      rw [rest_append, rest_of_open hopen, List.length_append, List.length_append, List.length_map]
      omega
    · -- A packet ends on the page, and what is behind it is in progress now.
      obtain ⟨c, hc, hends⟩ : ∃ c ∈ pieces, short c = true := by
        by_contra hnone
        exact hall fun c hc => Bool.eq_false_iff.mpr fun h => hnone ⟨c, hc, h⟩
      rw [if_neg hall] at hpacket
      have hpacket' : packet + (rest short pieces).length =
        (queue.map Segment.lacing).length + pieces.length := hpacket
      rw [List.length_map] at hpacket'
      rw [rest_append_of_mem hc hends, List.length_append, List.length_map]
      omega
  -- Both stores are in cells that are allocated.
  have hroom : ¬((os.withQueue queue).bodyStorage <
      (os.withQueue queue).bodyData.length + pieces.flatten.length ∨
        (os.withQueue queue).lacingStorage <
          (os.withQueue queue).lacingVals.length + (tableOf pieces).length) := by
    show ¬(os.bodyStorage < (queue.flatMap Segment.bytes).length + pieces.flatten.length ∨
      os.lacingStorage < (queue.map Segment.lacing).length + (pieces.map _).length)
    rw [List.length_map, List.length_map]
    omega
  unfold storePage
  rw [if_neg hroom]
  simp only [hstate, hlacing]
  unfold withQueue
  rw [← hbody, ← hcount]

/-- The queue before the segments of a page is not longer than before, but for the mark. So the room
for one more entry is enough for it. -/
theorem length_before (info : PageInfo) (queue : List Segment) :
    (os.before info queue).length ≤ queue.length + 1 ∧
      ((os.before info queue).flatMap Segment.bytes).length ≤
        (queue.flatMap Segment.bytes).length := by
  unfold before
  split
  · exact ⟨Nat.le_succ _, Nat.le_refl _⟩
  · have hlength := Queued.length_rest queue
    have hbytes := congrArg List.length (flatMap_complete queue)
    have hmark : (if os.pageno = -1 then [] else [missing]).length ≤ 1 ∧
        (if os.pageno = -1 then [] else [missing]).flatMap Segment.bytes = [] := by
      split
      · exact ⟨Nat.zero_le 1, rfl⟩
      · exact ⟨Nat.le_refl 1, rfl⟩
    rw [List.length_append] at hbytes
    unfold resumed
    rw [List.length_append, List.flatMap_append, hmark.2, List.append_nil]
    omega

/-- A page stores at most its pieces: its first packet may be left out. -/
theorem length_storedPieces (info : PageInfo) (queue : List Segment) :
    (os.storedPieces info queue).length ≤ info.pieces.length := by
  unfold storedPieces
  split
  · exact length_behind_le _
  · exact Nat.le_refl _

/-- The queue with the segments of the page holds what was there before and the pieces, so the room
that the code asks for is enough. -/
theorem length_accepted (info : PageInfo) (queue : List Segment) :
    (os.accepted info queue).length =
        (os.before info queue).length + (os.storedPieces info queue).length ∧
      ((os.accepted info queue).flatMap Segment.bytes).length =
        ((os.before info queue).flatMap Segment.bytes).length +
          (os.storedPieces info queue).flatten.length := by
  have hbytes : (os.accepted info queue).map Segment.bytes =
      (os.before info queue).map Segment.bytes ++ os.storedPieces info queue := by
    unfold accepted
    rw [map_bytes_markLast, List.map_append, map_bytes_decorate]
  have hlength := congrArg List.length hbytes
  rw [List.length_map, List.length_append, List.length_map] at hlength
  rw [List.flatMap_def, hbytes, List.flatten_append, List.length_append, ← List.flatMap_def]
  exact ⟨hlength, rfl⟩

/-- What is in the queue when the page is stored still fits. -/
theorem fits_before {info : PageInfo} (hfits : ∀ s ∈ queue, s.Fits) :
    ∀ s ∈ os.before info queue, s.Fits := by
  unfold before
  split
  · exact hfits
  · exact fits_resumed hfits

/-- The pieces that are stored are among those of the page. -/
theorem fits_storedPieces {info : PageInfo} (hpieces : ∀ b ∈ info.pieces, b.length ≤ 255) :
    ∀ b ∈ os.storedPieces info queue, b.length ≤ 255 := by
  unfold storedPieces
  split
  · exact fun b hb => hpieces b (mem_of_mem_behind hb)
  · exact hpieces

/-- The queue behind the page fits again, which is what the next page needs. -/
theorem fits_accepted {info : PageInfo} (hfits : ∀ s ∈ queue, s.Fits)
    (hpieces : ∀ b ∈ info.pieces, b.length ≤ 255) : ∀ s ∈ os.accepted info queue, s.Fits := by
  intro s hs
  have hbytes : s.bytes ∈ (os.accepted info queue).map Segment.bytes := List.mem_map_of_mem hs
  unfold accepted at hbytes
  rw [map_bytes_markLast, List.map_append, map_bytes_decorate] at hbytes
  rcases List.mem_append.mp hbytes with hold | hnew
  · obtain ⟨t, ht, heq⟩ := List.mem_map.mp hold
    have hbefore : t.Fits := fits_before hfits t ht
    unfold Fits
    rw [← heq]
    exact hbefore
  · exact fits_storedPieces hpieces _ hnew

/-- The state when the page is stored, in buffers with the given storages. It expects the number
behind that of the page. -/
def taking (os : OggStreamState) (info : PageInfo) (queue : List Segment)
    (bodyStorage lacingStorage : Nat) : OggStreamState :=
  withQueue { os with
    bodyStorage := bodyStorage
    lacingStorage := lacingStorage
    eOS := os.eOS || info.eos
    pageno := info.pageno + 1 } (os.accepted info queue)

/-- How a call of `ogg_stream_pagein` ends. A page of another stream, or of a later version, is left
out. When an allocation fails the state is cleared. Else the page is stored. -/
inductive Accepted (os : OggStreamState) (queue : List Segment) (info : PageInfo) :
    Int × OggStreamState → Prop
  | foreign (hother : info.serialno ≠ os.serialno ∨ 0 < info.version) :
      Accepted os queue info (-1, os.withQueue queue)
  | failed : Accepted os queue info (-1, clear)
  | stored (bodyStorage lacingStorage : Nat) (hserialno : info.serialno = os.serialno)
      (hversion : info.version = 0)
      (hqueued : Queued (os.taking info queue bodyStorage lacingStorage) (os.accepted info queue)) :
      Accepted os queue info (0, os.taking info queue bodyStorage lacingStorage)

/-- The room for the octets of a page. A page without octets needs none, and otherwise the buffer is
expanded or the allocation fails. -/
theorem exists_bodyExpand (alloc : Nat → Bool) (body : Bytes)
    (hroom : os.bodyData.length ≤ os.bodyStorage) :
    (if body.isEmpty then some os else os.bodyExpand alloc body.length) = none ∨
      ∃ storage, (if body.isEmpty then some os else os.bodyExpand alloc body.length) =
        some { os with bodyStorage := storage } ∧ os.bodyData.length + body.length ≤ storage := by
  cases hempty : body.isEmpty with
  | true =>
    rw [List.isEmpty_iff.mp hempty]
    exact .inr ⟨os.bodyStorage, rfl, hroom⟩
  | false =>
    simp only [Bool.false_eq_true, if_false]
    unfold bodyExpand
    cases hstorage : expandStorage alloc os.bodyStorage os.bodyData.length body.length 1024 with
    | none => exact .inl rfl
    | some storage => exact .inr ⟨storage, rfl, le_expandStorage hstorage hroom⟩

/-- The page is stored if there is room for its octets, when there is room for its entries. If the
allocation fails the state is cleared, and the page is lost with all that was queued. -/
theorem acceptPage_withQueue {og : OggPage} {info : PageInfo} (alloc : Nat → Bool)
    (hfits : ∀ s ∈ queue, s.Fits) (h : Shows og info)
    (hbodyRoom : (queue.flatMap Segment.bytes).length ≤ os.bodyStorage)
    (hlacingRoom : queue.length + (info.pieces.length + 1) ≤ os.lacingStorage) :
    (os.withQueue queue).acceptPage alloc og info.continued info.bos info.eos info.granulepos
        info.pageno = some (-1, clear) ∨
      ∃ bodyStorage, (os.withQueue queue).acceptPage alloc og info.continued info.bos info.eos
          info.granulepos info.pageno =
        some (0, os.taking info queue bodyStorage os.lacingStorage) ∧
        ((os.accepted info queue).flatMap Segment.bytes).length ≤ bodyStorage := by
  have hsequence : (os.withQueue queue).inSequence info.pageno =
      some (os.withQueue (os.before info queue)) := by
    unfold inSequence before
    rw [unroll_withQueue hfits (by omega)]
    show (if (info.pageno : Int) = os.pageno then _ else _) = _
    split <;> rfl
  have hbefore : ∀ s ∈ os.before info queue, s.Fits := fits_before hfits
  obtain ⟨htable, hle, hdrop⟩ := skipPartial_tableOf h.fits
  have hskips : (info.continued && (rest ends (os.before info queue)).isEmpty) =
      os.skips info queue := rfl
  -- What is left of the page: the pieces that are stored.
  obtain ⟨skipped, hskipped⟩ : ∃ skipped, skipped =
      if os.skips info queue then skipPartial (tableOf info.pieces)
      else (0, tableOf info.pieces) := ⟨_, rfl⟩
  have hstored : skipped.1 ≤ info.pieces.flatten.length ∧
      info.pieces.flatten.drop skipped.1 = (os.storedPieces info queue).flatten ∧
      skipped.2 = tableOf (os.storedPieces info queue) := by
    rw [hskipped]
    unfold storedPieces
    cases os.skips info queue with
    | false => exact ⟨Nat.zero_le _, rfl, rfl⟩
    | true => exact ⟨hle, hdrop, htable⟩
  have hpieces : ∀ b ∈ os.storedPieces info queue, b.length ≤ 255 := fits_storedPieces h.fits
  have hcount := @length_storedPieces os info queue
  obtain ⟨hlength, hbytes⟩ := @length_before os info queue
  unfold acceptPage
  simp only [h.table, hsequence, noPartial_withQueue hbefore, h.body, hskips, ← hskipped]
  rw [if_neg (Nat.not_lt.mpr hstored.1), hstored.2.1, hstored.2.2]
  rcases @exists_bodyExpand (os.withQueue (os.before info queue)) alloc
    (os.storedPieces info queue).flatten (Nat.le_trans hbytes hbodyRoom) with hfailed | ⟨storage,
      hexpand, hroom⟩
  · rw [hfailed]
    exact .inl rfl
  · rw [hexpand]
    refine .inr ⟨storage, ?_, ?_⟩
    · have hstore := @storePage_withQueue { os with bodyStorage := storage }
        (os.before info queue) (info.bos && !os.skips info queue) info.granulepos
        (os.storedPieces info queue) info.eos info.pageno hpieces hroom (by
          show _ ≤ os.lacingStorage
          omega)
      exact congrArg (Option.map fun os => (0, os)) hstore
    · rw [(length_accepted info queue).2]
      exact hroom

/-- Both removals at the start of `pagein` leave the state with its queue at the front. -/
theorem dropReturned_bind (h : Queued os queue) :
    os.dropReturned.bind dropLacing = some (os.withQueue queue) := by
  have hclean : Queued { os with bodyData := queue.flatMap Segment.bytes, bodyReturned := 0 }
      queue := { h with bodyRoom := h.length_le.1, body := rfl, bodyReturned := Nat.zero_le _ }
  rw [h.dropReturned, Option.bind_some, hclean.dropLacing]
  rfl

/-- A page that passes the checks is stored, if there is room for its entries and its octets. There
is if the expansions do not fail. -/
theorem takePage_spec {og : OggPage} {info : PageInfo} (alloc : Nat → Bool) (h : Queued os queue)
    (hshows : Shows og info) (hint : queue.length + 256 ≤ intMax)
    (hserialno : info.serialno = os.serialno) (hversion : info.version = 0) {segments : Nat}
    (hcount : segments = info.pieces.length) (hmax : info.pieces.length ≤ 255) :
    ∃ r, (os.withQueue queue).takePage alloc og info.continued info.bos info.eos info.granulepos
      info.pageno segments = some r ∧ Accepted os queue info r := by
  obtain ⟨hbody, hlength⟩ := h.length_le
  have hlacing : (os.withQueue queue).lacingVals.length = queue.length := List.length_map _
  unfold takePage lacingExpand
  cases hstorage : expandStorage (fun storage => alloc (storage * 4) && alloc (storage * 8))
    (os.withQueue queue).lacingStorage (os.withQueue queue).lacingVals.length (segments + 1) 32 with
  | none => exact ⟨_, rfl, .failed⟩
  | some storage =>
    have hroom := le_expandStorage hstorage (hlacing ▸ Nat.le_trans hlength h.lacingRoom)
    -- The places of the lacing values are counted in an `int`.
    have hplaces : ¬intMax < (os.withQueue queue).lacingVals.length + (segments + 1) := by
      rw [hlacing]
      omega
    rw [hlacing, hcount] at hroom
    simp only [Option.map_some]
    rw [if_neg hplaces]
    obtain hfailed | ⟨bodyStorage, hstored, hbodyRoom⟩ :=
      @acceptPage_withQueue { os with lacingStorage := storage } queue og info alloc h.fits hshows
        hbody hroom
    · exact ⟨_, hfailed, .failed⟩
    · refine ⟨_, hstored, .stored bodyStorage storage hserialno hversion ?_⟩
      have hpieces := @length_storedPieces os info queue
      have hbefore := (@length_before os info queue).1
      refine queued_withQueue h.allocated hbodyRoom ?_ (fits_accepted h.fits hshows.fits)
      show (os.accepted info queue).length ≤ storage
      rw [(length_accepted info queue).1]
      omega

/-- A state that was cleared refuses the page, and stays as it is. The caller learns of the failed
allocation by this. -/
theorem pagein_refused {og : OggPage} {info : PageInfo} (alloc : Nat → Bool)
    (hcleared : os.allocated = false) (hshows : Shows og info) :
    os.pagein alloc og = some (-1, os) := by
  obtain ⟨n, hn, -⟩ := hshows.segments
  unfold pagein
  rw [hshows.version, hshows.continued, hshows.bos, hshows.eos, hshows.granulepos,
    hshows.serialno, hshows.pageno, hn]
  exact if_pos hcleared

/-- A call of `ogg_stream_pagein` has no fault, when the places of the entries are numbers of an
`int`. -/
theorem pagein_spec {og : OggPage} {info : PageInfo} (alloc : Nat → Bool) (h : Queued os queue)
    (hshows : Shows og info) (hint : os.lacingVals.length + 256 ≤ intMax) :
    ∃ r, os.pagein alloc og = some r ∧ Accepted os queue info r := by
  obtain ⟨n, hn, hcount, hmax⟩ := hshows.segments
  have hcall : os.pagein alloc og =
      if info.serialno ≠ os.serialno then some (-1, os.withQueue queue)
      else if 0 < info.version then some (-1, os.withQueue queue)
      else (os.withQueue queue).takePage alloc og info.continued info.bos info.eos
        info.granulepos info.pageno n.toNat := by
    unfold pagein
    rw [hshows.version, hshows.continued, hshows.bos, hshows.eos, hshows.granulepos,
      hshows.serialno, hshows.pageno, hn]
    show (if os.allocated = false then _ else os.dropReturned.bind fun os =>
      os.dropLacing.bind _) = _
    rw [h.allocated, if_neg Bool.noConfusion, ← Option.bind_assoc, dropReturned_bind h]
    rfl
  rw [hcall]
  by_cases hserialno : info.serialno ≠ os.serialno
  · rw [if_pos hserialno]
    exact ⟨_, rfl, .foreign (.inl hserialno)⟩
  · rw [if_neg hserialno]
    by_cases hversion : 0 < info.version
    · rw [if_pos hversion]
      exact ⟨_, rfl, .foreign (.inr hversion)⟩
    · rw [if_neg hversion]
      have hlength := h.length_le.2
      exact takePage_spec alloc h hshows (by omega) (not_not.mp hserialno)
        (Nat.eq_zero_of_not_pos hversion) hcount hmax

/-! ### Packets -/

/-- A segment of a packet: it is no mark of a gap, and its granule position has been set. -/
def Stored (s : Segment) : Prop := s.gap = false ∧ s.granule.isSome = true

/-- A complete group is a packet or the mark of a gap. Any other mixture would be returned as a
packet with a hole in it. -/
def IsMessage (g : List Segment) : Prop :=
  (∃ s, g = [s] ∧ s.gap = true ∧ s.bytes = []) ∨ ∀ s ∈ g, Stored s

/-- The packet of a complete group, if it is no mark of a gap. It begins the stream if its first
segment does, and ends it if one of its segments does. The granule position is that of its last
segment. -/
def packetOf (packetno : Nat) : List Segment → Option OggPacket
  | [] => none
  | s :: g =>
    if s.gap then none
    else
      some ⟨(s :: g).flatMap Segment.bytes, s.bos, (s :: g).any Segment.eos,
        (((s :: g).getLast?.bind Segment.granule).getD 0), packetno⟩

/-- The state behind a group that was returned: its octets and entries are counted as returned, and
the packet number has moved on, also over a gap. -/
def taken (os : OggStreamState) (g : List Segment) : OggStreamState :=
  { os with
    bodyReturned := os.bodyReturned + (g.flatMap Segment.bytes).length
    lacingReturned := os.lacingReturned + g.length
    packetno := os.packetno + 1 }

variable {g : List Segment} {gs : List (List Segment)}

/-- A complete group stands at the head of the queue, in front of the other groups and of the packet
in progress. -/
theorem eq_group (hgroups : groups ends queue = g :: gs) :
    queue = g ++ (gs.flatten ++ rest ends queue) := by
  conv => lhs; rw [← @flatten_groups _ ends queue, hgroups]
  rw [List.flatten_cons, List.append_assoc]

/-- Taking the first packet of a queue leaves the others and the unfinished rest. -/
theorem groups_tail (hgroups : groups ends queue = g :: gs) :
    groups ends (gs.flatten ++ rest ends queue) = gs ∧
      rest ends (gs.flatten ++ rest ends queue) = rest ends queue := by
  have hgs : ∀ g' ∈ gs, IsGroup ends g' := by
    intro g' hg'
    refine @isGroup_of_mem _ ends queue _ ?_
    rw [hgroups]
    exact List.mem_cons_of_mem _ hg'
  obtain ⟨h₁, h₂⟩ := split_flatten hgs (rest ends queue)
  rw [h₁, h₂, rest_rest, groups_of_open fun s hs => rest_open hs, List.append_nil]
  exact ⟨rfl, rfl⟩

/-- Behind `packetout` the state holds the queue without its first packet. -/
theorem queued_taken (h : Queued os queue) (hgroups : groups ends queue = g :: gs) :
    Queued (os.taken g) (gs.flatten ++ rest ends queue) := by
  have hqueue := eq_group hgroups
  have hlacing : os.lacingVals.drop (os.lacingReturned + g.length) =
      (gs.flatten ++ rest ends queue).map Segment.lacing := by
    rw [← List.drop_drop, h.lacing, hqueue, List.map_append, ← List.length_map Segment.lacing,
      List.drop_left, ← hqueue]
  have hbody : os.bodyData.drop (os.bodyReturned + (g.flatMap Segment.bytes).length) =
      (gs.flatten ++ rest ends queue).flatMap Segment.bytes := by
    rw [← List.drop_drop, h.body, hqueue, List.flatMap_append, List.drop_left, ← hqueue]
  have hlength : g.length ≤ os.lacingVals.length - os.lacingReturned := by
    rw [← List.length_drop, h.lacing, hqueue, List.length_map, List.length_append]
    exact Nat.le_add_right _ _
  have hbodyLength : (g.flatMap Segment.bytes).length ≤ os.bodyData.length - os.bodyReturned := by
    rw [← List.length_drop, h.body, hqueue, List.flatMap_append, List.length_append]
    exact Nat.le_add_right _ _
  have hreturned := h.lacingReturned
  have hbodyReturned := h.bodyReturned
  refine ⟨h.allocated, h.bodyRoom, h.lacingRoom, fun s hs => h.fits s ?_, hlacing, hbody, ?_, ?_,
    ?_⟩
  · rw [hqueue]
    exact List.mem_append_right _ hs
  · show os.lacingReturned + g.length ≤ os.lacingVals.length
    omega
  · show os.bodyReturned + _ ≤ os.bodyData.length
    omega
  · have hpacket := h.packet
    have hcount := congrArg List.length hqueue
    rw [List.length_append] at hcount
    rw [(groups_tail hgroups).2]
    show os.lacingPacket + _ = os.lacingReturned + g.length + _
    omega

/-- The loop over the segments of a packet stops behind its last one. It adds up their sizes and
collects the flags of the end. -/
theorem gather_group (hgroup : IsGroup ends g) (hfits : ∀ s ∈ g, s.Fits) (ls : List Lacing) :
    gather (g.map Segment.lacing ++ ls) =
      some (g.length, (g.flatMap Segment.bytes).length, g.any Segment.eos,
        g.getLast?.bind Segment.granule) := by
  obtain ⟨init, x, rfl, hinit, hx⟩ := hgroup
  -- A value of 255 says that the packet goes on, which is the test of the loop.
  have hval : ∀ s ∈ init ++ [x], s.lacing.val = 255 ↔ s.ends = false := by
    intro s hs
    have hle := hfits s hs
    have hlt := (hfits s hs).val_lt
    rw [← UInt8.toNat_inj, (hfits s hs).toNat_val]
    unfold Fits at hle
    unfold Segment.ends short
    rw [decide_eq_false_iff_not]
    show s.bytes.length = 255 ↔ _
    omega
  -- Over the segments in front of the last one, each of which is full.
  induction init with
  | nil =>
    have hlast : ¬x.lacing.val = 255 := by
      rw [hval x List.mem_cons_self, hx]
      exact Bool.noConfusion
    show (if x.lacing.val = 255 then _ else _) = _
    rw [if_neg hlast, (hfits x List.mem_cons_self).toNat_val]
    simp [Segment.lacing]
  | cons s init ih =>
    have hs := (hval s List.mem_cons_self).mpr (hinit s List.mem_cons_self)
    have hrest := ih (fun t ht => hfits t (List.mem_cons_of_mem _ ht))
      (fun t ht => hinit t (List.mem_cons_of_mem _ ht))
      (fun t ht => hval t (List.mem_cons_of_mem _ ht))
    have hlast : (s :: (init ++ [x])).getLast? = some x := by
      rw [← List.cons_append, List.getLast?_concat]
    show (if s.lacing.val = 255 then (gather ((init ++ [x]).map Segment.lacing ++ ls)).bind _
      else _) = _
    rw [if_pos hs, hrest, Option.bind_some, (hfits s List.mem_cons_self).toNat_val]
    simp [Segment.lacing, hlast]

/-- The packet that `packetout` fills in from a group: its octets, the flags of its segments, the
granule position of the last one and the number of the packet. -/
theorem fillPacket_group {s : Segment} {tail : List Segment} (h : Queued os queue)
    (hqueue : queue = (s :: g) ++ tail) (hstored : ∀ t ∈ s :: g, Stored t) :
    os.fillPacket s.lacing ((s :: g).flatMap Segment.bytes).length ((s :: g).any Segment.eos)
        ((s :: g).getLast?.bind Segment.granule) =
      some ⟨(s :: g).flatMap Segment.bytes, s.bos, (s :: g).any Segment.eos,
        ((s :: g).getLast?.bind Segment.granule).getD 0, os.packetno⟩ := by
  have hlast := hstored _ (List.getLast_mem (List.cons_ne_nil s g))
  obtain ⟨granule, hgranule⟩ := Option.isSome_iff_exists.mp hlast.2
  have hsome : (s :: g).getLast?.bind Segment.granule = some granule := by
    rw [List.getLast?_eq_some_getLast (List.cons_ne_nil s g), Option.bind_some, hgranule]
  have hbody := h.body
  rw [hqueue, List.flatMap_append] at hbody
  have hlength := congrArg List.length hbody
  rw [List.length_drop, List.length_append] at hlength
  have hreturned := h.bodyReturned
  unfold fillPacket
  rw [hsome, hbody, List.take_left]
  show (if _ then none else _) = _
  rw [if_neg (by omega)]
  rfl

/-- The answer of `ogg_stream_packetout` and of `ogg_stream_packetpeek` is at the head of the
queue. A mark of a gap is taken by both. -/
theorem packetoutI_eq (h : Queued os queue) (hmessages : ∀ g ∈ groups ends queue, IsMessage g)
    (op adv : Bool) :
    os.packetoutI op adv = some
      (match groups ends queue with
      | [] => (0, none, os)
      | g :: _ =>
        match packetOf os.packetno g with
        | none => (-1, none, os.taken g)
        | some packet =>
          (1, if op then some packet else none, if adv then os.taken g else os)) := by
  have hpacket := h.lacingPacket
  unfold packetoutI
  -- The first group decides, if there is one.
  cases hgroups : groups ends queue with
  -- No packet is complete, and the mark of the last complete one is where the returned entries end.
  | nil =>
    rw [hgroups] at hpacket
    rw [if_pos (by rw [hpacket]; exact Nat.le_refl _)]
  | cons g gs =>
    have hqueue := eq_group hgroups
    have hgroup : IsGroup ends g := @isGroup_of_mem _ ends queue g (hgroups ▸ List.mem_cons_self)
    have hmessage := hmessages g (hgroups ▸ List.mem_cons_self)
    have hfits : ∀ s ∈ g, s.Fits := by
      intro s hs
      refine h.fits s ?_
      rw [hqueue]
      exact List.mem_append_left _ hs
    have hlacing : os.lacingVals.drop os.lacingReturned = g.map Segment.lacing ++
        (gs.flatten ++ rest ends queue).map Segment.lacing := by
      rw [h.lacing, ← List.map_append, ← hqueue]
    cases g with
    | nil =>
      obtain ⟨init, x, hnil, -⟩ := hgroup
      exact absurd hnil.symm (List.append_ne_nil_of_right_ne_nil _ (List.cons_ne_nil _ _))
    | cons s g =>
      have hopen : ¬os.lacingPacket ≤ os.lacingReturned := by
        rw [hgroups, List.flatten_cons, List.length_append, List.length_cons] at hpacket
        omega
      have hfirst : os.lacingVals[os.lacingReturned]? = some s.lacing := by
        have hhead := congrArg (·[0]?) hlacing
        simpa using hhead
      rw [if_neg hopen, hfirst]
      show (if s.gap = true then _ else _) = _
      by_cases hgap : s.gap = true
      · -- The mark of a gap: it is one entry without octets, which both calls take.
        obtain ⟨t, ht, -, hbytes⟩ | hstored := hmessage
        · obtain ⟨rfl, rfl⟩ := List.cons.inj ht
          have hpacketOf : packetOf os.packetno [s] = none := if_pos hgap
          simp only [if_pos hgap, hpacketOf]
          unfold taken
          rw [List.flatMap_singleton, hbytes]
          rfl
        · rw [(hstored s List.mem_cons_self).1] at hgap
          cases hgap
      · obtain ⟨t, ht, hgap', -⟩ | hstored := hmessage
        · obtain ⟨rfl, -⟩ := List.cons.inj ht
          exact absurd hgap' hgap
        · -- A packet: the loop over its entries stops behind the group.
          have hpacketOf : packetOf os.packetno (s :: g) = some _ := if_neg hgap
          have hfill := fillPacket_group h hqueue hstored
          simp only [if_neg hgap, hpacketOf, hlacing, gather_group hgroup hfits]
          cases op with
          | true =>
            show ((os.fillPacket s.lacing _ _ _).map some).bind _ = _
            rw [hfill]
            rfl
          | false => cases adv <;> rfl

end OggStreamState

end TSubSpec.Ogg
