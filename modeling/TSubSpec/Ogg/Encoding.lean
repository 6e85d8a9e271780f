import TSubSpec.Lib.Machine
import TSubSpec.Ogg.Queue

/-!
# `TSubSpec.Ogg.Encoding`: packets into pages

A stream state that takes packets and gives pages holds the segments that are in no page yet
(`Pending`), in cells that are allocated. `Pending.iovecin` says what a packet adds to them, and
`Pending.flushI` which of them go to the next page and what its header says. A packet whose
allocation fails leaves a cleared state.
-/

set_option autoImplicit false

namespace TSubSpec.Ogg

open TSubSpec.Lib Lacing Segment OggStreamState

/-! ### Packets that were submitted -/

/-- The segments of a packet, or of its end. The granule position belongs to the last one, the
others have the one of the packet before. -/
def marked (before granulepos : BitVec 64) : Bool → List Bytes → List Segment
  | _, [] => []
  | first, [b] => [⟨b, first, false, false, some granulepos⟩]
  | first, b :: bs => ⟨b, first, false, false, some before⟩ :: marked before granulepos false bs

/-- The segments of a packet: it is cut into pieces of 255 octets and a shorter last one, which gets
the granule position of the packet; the others keep the position before. -/
def segmentsOf (before : BitVec 64) (packet : Bytes) (granulepos : BitVec 64) : List Segment :=
  marked before granulepos true (lace 255 packet)

/-- The segments of each packet. The granule position that a packet begins with is that of the
packet before. -/
def packetsOf : BitVec 64 → List (Bytes × BitVec 64) → List (List Segment)
  | _, [] => []
  | before, (packet, granulepos) :: packets =>
    segmentsOf before packet granulepos :: packetsOf granulepos packets

variable {before granulepos : BitVec 64} {packet : Bytes} {packets : List (Bytes × BitVec 64)}

/-- The flags of a packet do not change its octets. -/
theorem map_bytes_marked (first : Bool) (pieces : List Bytes) :
    (marked before granulepos first pieces).map Segment.bytes = pieces := by
  induction pieces generalizing first with
  | nil => rfl
  | cons b bs ih =>
    cases bs with
    | nil => rfl
    | cons c cs => exact congrArg (b :: ·) (ih false)

/-- The octets of a packet's segments are the lacing of the packet. -/
theorem map_bytes_segmentsOf :
    (segmentsOf before packet granulepos).map Segment.bytes = lace 255 packet :=
  map_bytes_marked true _

/-- A piece that others follow does not end the packet, so it keeps the position before it. -/
theorem marked_cons (first : Bool) (b : Bytes) {pieces : List Bytes} (h : pieces ≠ []) :
    marked before granulepos first (b :: pieces) =
      ⟨b, first, false, false, some before⟩ :: marked before granulepos false pieces := by
  cases pieces with
  | nil => exact absurd rfl h
  | cons c cs => rfl

/-- A list with a last element is not empty. -/
theorem concat_ne_nil (full : List Bytes) (last : Bytes) : full ++ [last] ≠ [] :=
  List.append_ne_nil_of_right_ne_nil _ (List.cons_ne_nil last [])

/-- The full segments are followed by the last one. -/
theorem marked_concat {full : List Bytes} (hfull : ∀ b ∈ full, b.length = 255) (last : Bytes) :
    (marked before granulepos false (full ++ [last])).map Segment.lacing =
      List.replicate full.length ⟨255, false, false, false, some before⟩ ++
        [⟨UInt8.ofNat last.length, false, false, false, some granulepos⟩] := by
  induction full with
  | nil => rfl
  | cons b full ih =>
    rw [List.cons_append, marked_cons _ _ (concat_ne_nil full last), List.map_cons,
      ih fun c hc => hfull c (List.mem_cons_of_mem _ hc), List.length_cons, List.replicate_succ,
      List.cons_append]
    unfold Segment.lacing
    rw [hfull b List.mem_cons_self]
    rfl

/-- What `ogg_stream_iovecin` stores of the packet. -/
theorem map_lacing_segmentsOf :
    (segmentsOf before packet granulepos).map Segment.lacing =
      lacingOf packet.length before granulepos := by
  obtain ⟨full, last, hlace, hcount, hfull, hlast, -⟩ := lace_eq (by decide : 0 < 255) packet
  unfold segmentsOf lacingOf
  rw [hlace, ← hcount, ← hlast]
  cases full with
  | nil => rfl
  | cons b full =>
    rw [List.cons_append, marked_cons _ _ (concat_ne_nil full last), List.map_cons,
      marked_concat fun c hc => hfull c (List.mem_cons_of_mem _ hc)]
    unfold Segment.lacing
    rw [hfull b List.mem_cons_self]
    rfl

/-- The flags of a segment, and its granule position if it is the last one. -/
theorem marked_split {first : Bool} {full : List Bytes} {last : Bytes}
    (hfull : ∀ b ∈ full, short b = false) {C D : List Segment} {s : Segment}
    (h : marked before granulepos first (full ++ [last]) = C ++ s :: D) :
    s.bos = (first && C.isEmpty) ∧ s.gap = false ∧ s.eos = false ∧ s.granule.isSome = true ∧
      (s.ends = true → s.granule = some granulepos) := by
  induction full generalizing first C with
  | nil =>
    -- Either the segment itself, or one behind the head, which has the first flag.
    cases C with
    | nil =>
      obtain ⟨rfl, -⟩ := List.cons.inj h
      exact ⟨(Bool.and_true first).symm, rfl, rfl, rfl, fun _ => rfl⟩
    | cons c C =>
      exact absurd (List.cons.inj h).2
        (List.append_ne_nil_of_right_ne_nil C (List.cons_ne_nil s D)).symm
  | cons b full ih =>
    have hb : short b = false := hfull b List.mem_cons_self
    rw [List.cons_append, marked_cons _ _ (concat_ne_nil full last)] at h
    cases C with
    | nil =>
      obtain ⟨rfl, -⟩ := List.cons.inj h
      refine ⟨(Bool.and_true first).symm, rfl, rfl, rfl, fun hends => ?_⟩
      rw [show Segment.ends _ = short b from rfl, hb] at hends
      cases hends
    | cons c C =>
      obtain ⟨hbos, hrest⟩ := ih (fun c hc => hfull c (List.mem_cons_of_mem _ hc))
        (List.cons.inj h).2
      refine ⟨?_, hrest⟩
      rw [hbos]
      exact (Bool.and_false first).symm

/-- The segments of a packet are one group: only the last one is shorter than 255 octets. -/
theorem isGroup_segmentsOf : IsGroup ends (segmentsOf before packet granulepos) := by
  refine @isGroup_of_map _ short _ Segment.bytes _ ?_
  rw [map_bytes_segmentsOf]
  exact isGroup_lace (by decide) packet

/-- The packets of a stream are the groups of its segments, and no segment is left over. -/
theorem groups_packetsOf (before : BitVec 64) (packets : List (Bytes × BitVec 64)) :
    groups ends (packetsOf before packets).flatten = packetsOf before packets ∧
      rest ends (packetsOf before packets).flatten = [] := by
  have hgroups : ∀ g ∈ packetsOf before packets, IsGroup ends g := by
    induction packets generalizing before with
    | nil => exact fun g hg => absurd hg List.not_mem_nil
    | cons p packets ih =>
      intro g hg
      rcases List.mem_cons.mp hg with rfl | hg
      · exact isGroup_segmentsOf
      · exact ih p.2 g hg
  exact ⟨groups_flatten hgroups, rest_flatten hgroups⟩

/-- The granule position before the next packet: that of the last one that was submitted. -/
def lastGranule (before : BitVec 64) (packets : List (Bytes × BitVec 64)) : BitVec 64 :=
  (packets.getLast?.map Prod.snd).getD before

/-- A packet that is submitted behind others adds its segments; its position before is the granule
position of the last one. -/
theorem packetsOf_concat (before : BitVec 64) (packets : List (Bytes × BitVec 64))
    (p : Bytes × BitVec 64) :
    packetsOf before (packets ++ [p]) =
      packetsOf before packets ++ [segmentsOf (lastGranule before packets) p.1 p.2] := by
  induction packets generalizing before with
  | nil => rfl
  | cons q packets ih =>
    rw [List.cons_append, packetsOf, ih q.2, packetsOf, List.cons_append]
    cases packets with
    | nil => rfl
    | cons r packets =>
      unfold lastGranule
      rw [List.getLast?_cons_cons]
      rfl

/-- The octets of the segments of a stream are the lacings of its packets. -/
theorem map_bytes_packetsOf (before : BitVec 64) (packets : List (Bytes × BitVec 64)) :
    (packetsOf before packets).map (List.map Segment.bytes) =
      packets.map fun p => lace 255 p.1 := by
  induction packets generalizing before with
  | nil => rfl
  | cons p packets ih =>
    rw [packetsOf, List.map_cons, List.map_cons, ih, map_bytes_segmentsOf]

/-- A packet among those that were submitted. -/
theorem getElem?_packetsOf {k : Nat} {g : List Segment}
    (h : (packetsOf before packets)[k]? = some g) :
    ∃ before' p, packets[k]? = some p ∧ g = segmentsOf before' p.1 p.2 := by
  induction packets generalizing before k with
  | nil => cases h
  | cons p packets ih =>
    cases k with
    | zero => exact ⟨before, p, rfl, (Option.some.inj h).symm⟩
    | succ k => exact ih h

/-- What a segment says of its place: whether it is the first one of its packet, and the granule
position of the packet if it is the last one. -/
theorem segment_of_split {A B : List Segment} {s : Segment}
    (h : (packetsOf before packets).flatten = A ++ s :: B) :
    ∃ p, packets[(groups ends A).length]? = some p ∧ s.bos = (rest ends A).isEmpty ∧
      s.gap = false ∧ s.eos = false ∧ s.granule.isSome = true ∧
      (s.ends = true → s.granule = some p.2) := by
  obtain ⟨hgroups, hrest⟩ := groups_packetsOf before packets
  rw [h] at hgroups hrest
  obtain ⟨tail, htail⟩ := getElem?_groups hrest
  rw [hgroups] at htail
  obtain ⟨before', p, hp, hsegments⟩ := getElem?_packetsOf htail
  obtain ⟨full, last, hlace, -, hfull, -, -⟩ := lace_eq (by decide : 0 < 255) p.1
  unfold segmentsOf at hsegments
  rw [hlace] at hsegments
  obtain ⟨hbos, hspec⟩ := marked_split (fun b hb => by
    rw [short, hfull b hb]
    rfl) hsegments.symm
  rw [Bool.true_and] at hbos
  exact ⟨p, hp, hbos, hspec⟩

/-- Every segment that is made has at most 255 octets. -/
theorem fits_packetsOf {s : Segment} (h : s ∈ (packetsOf before packets).flatten) : s.Fits := by
  obtain ⟨g, hg, hs⟩ := List.mem_flatten.mp h
  have hlaced : g.map Segment.bytes ∈ packets.map fun p => lace 255 p.1 := by
    rw [← map_bytes_packetsOf before]
    exact List.mem_map_of_mem hg
  obtain ⟨p, -, hp⟩ := List.mem_map.mp hlaced
  obtain ⟨full, last, hlace, -, hfull, -, hlast⟩ := lace_eq (by decide : 0 < 255) p.1
  have hbytes : s.bytes ∈ g.map Segment.bytes := List.mem_map_of_mem hs
  rw [← hp, hlace] at hbytes
  rcases List.mem_append.mp hbytes with hb | hb
  · exact Nat.le_of_eq (hfull _ hb)
  · unfold Fits
    rw [List.mem_singleton.mp hb]
    exact Nat.le_of_lt hlast

/-! ### The state of an encoder -/

/-- The segments that are in no page yet. The buffers have cells for what they hold, and the entries
and the octets are those of the segments. -/
structure Pending (os : OggStreamState) (queue : List Segment) : Prop where
  allocated : os.allocated = true
  bodyRoom : os.bodyData.length ≤ os.bodyStorage
  lacingRoom : os.lacingVals.length ≤ os.lacingStorage
  fits : ∀ s ∈ queue, s.Fits
  granule : ∀ s ∈ queue, s.granule.isSome = true
  lacing : os.lacingVals = queue.map Segment.lacing
  body : os.bodyData.drop os.bodyReturned = queue.flatMap Segment.bytes
  bodyReturned : os.bodyReturned ≤ os.bodyData.length

variable {os : OggStreamState} {queue : List Segment}

/-- The sum that `ogg_stream_iovecin` makes of the sizes, when it does not overflow, is the length
of what is copied. -/
theorem iovBytes_eq {n bytes : Nat} {iov : List Bytes} (h : iovBytes n iov = some bytes) :
    bytes = n + iov.flatten.length := by
  induction iov generalizing n with
  | nil => exact (Option.some.inj h).symm
  | cons v iov ih =>
    rw [iovBytes] at h
    split at h
    · cases h
    · rw [ih h, List.flatten_cons, List.length_append, Nat.add_assoc]

/-- All pieces are copied, if their lengths are numbers of an `int` and there is room. -/
theorem copyIov_eq {iov : List Bytes} {storage : Nat} {data : Bytes}
    (hsmall : ∀ v ∈ iov, v.length ≤ intMax) (hroom : data.length + iov.flatten.length ≤ storage) :
    copyIov storage data iov = some (data ++ iov.flatten) := by
  induction iov generalizing data with
  | nil => exact congrArg some (List.append_nil data).symm
  | cons v iov ih =>
    have hv : v.length ≤ intMax := hsmall v List.mem_cons_self
    have hrest : ∀ u ∈ iov, u.length ≤ intMax := fun u hu => hsmall u (List.mem_cons_of_mem v hu)
    rw [List.flatten_cons, List.length_append] at hroom
    rw [copyIov, if_pos ⟨hv, by omega⟩, ih hrest (by rw [List.length_append]; omega),
      List.flatten_cons, List.append_assoc]

/-- A packet has one more lacing value than it has full segments. -/
theorem length_lacingOf (bytes : Nat) (before granulepos : BitVec 64) :
    (lacingOf bytes before granulepos).length = bytes / 255 + 1 := by
  unfold lacingOf
  rw [List.length_modifyHead, List.length_append, List.length_replicate, List.length_singleton]

/-- The segments of a packet have sizes that can be stored, and granule positions. -/
theorem fits_segmentsOf {s : Segment} (hs : s ∈ segmentsOf before packet granulepos) :
    s.Fits ∧ s.granule.isSome = true := by
  have hmem : s ∈ (packetsOf before [(packet, granulepos)]).flatten := by
    rw [packetsOf, packetsOf, List.flatten_cons]
    exact List.mem_append_left _ hs
  obtain ⟨A, B, hsplit⟩ := List.append_of_mem hmem
  obtain ⟨-, -, -, -, -, hgranule, -⟩ := segment_of_split hsplit
  exact ⟨fits_packetsOf hmem, hgranule⟩

/-- The state when the packet is stored, in buffers with the given storages. Its segments are behind
those of the queue. -/
def submitting (os : OggStreamState) (queue : List Segment) (iov : List Bytes) (eOS : Bool)
    (granulepos : BitVec 64) (bodyStorage lacingStorage : Nat) : OggStreamState :=
  { os with
    bodyData := queue.flatMap Segment.bytes ++ iov.flatten
    bodyStorage := bodyStorage
    bodyReturned := 0
    lacingVals := os.lacingVals ++ lacingOf iov.flatten.length os.granulepos granulepos
    lacingStorage := lacingStorage
    granulepos := granulepos
    packetno := os.packetno + 1
    eOS := os.eOS || eOS }

/-- The packet waits behind the others. -/
theorem Pending.submitting (h : Pending os queue) (iov : List Bytes) (eOS : Bool)
    (granulepos : BitVec 64) {bodyStorage lacingStorage : Nat}
    (hbody : (queue.flatMap Segment.bytes).length + iov.flatten.length ≤ bodyStorage)
    (hlacing : os.lacingVals.length + (iov.flatten.length / 255 + 1) ≤ lacingStorage) :
    Pending (submitting os queue iov eOS granulepos bodyStorage lacingStorage)
      (queue ++ segmentsOf os.granulepos iov.flatten granulepos) := by
  have hpacket : (segmentsOf os.granulepos iov.flatten granulepos).flatMap Segment.bytes =
      iov.flatten := by
    rw [List.flatMap_def, map_bytes_segmentsOf, flatten_lace]
  refine ⟨h.allocated, ?_, ?_, ?_, ?_, ?_, ?_, Nat.zero_le _⟩
  · show (queue.flatMap Segment.bytes ++ iov.flatten).length ≤ bodyStorage
    rwa [List.length_append]
  · show (os.lacingVals ++ lacingOf _ _ _).length ≤ lacingStorage
    rwa [List.length_append, length_lacingOf]
  · -- The segments that wait are as before, the new ones are cut from the packet.
    intro s hs
    rcases List.mem_append.mp hs with hs | hs
    · exact h.fits s hs
    · exact (fits_segmentsOf hs).1
  · intro s hs
    rcases List.mem_append.mp hs with hs | hs
    · exact h.granule s hs
    · exact (fits_segmentsOf hs).2
  · show os.lacingVals ++ _ = _
    rw [List.map_append, map_lacing_segmentsOf, h.lacing]
  · show (queue.flatMap Segment.bytes ++ iov.flatten).drop 0 = _
    rw [List.drop_zero, List.flatMap_append, hpacket]

/-- A packet is put behind the segments that wait, in buffers that have room for it, or an expansion
of them fails. -/
theorem Pending.iovecin (h : Pending os queue) (alloc : Nat → Bool) {iov : List Bytes} {bytes : Nat}
    (eOS : Bool) (granulepos : BitVec 64) (hbytes : iovBytes 0 iov = some bytes)
    (hsmall : ∀ v ∈ iov, v.length ≤ intMax) (hcount : iov.flatten.length / 255 ≤ intMax) :
    os.iovecin alloc iov eOS granulepos = some (-1, clear) ∨
      ∃ bodyStorage lacingStorage, os.iovecin alloc iov eOS granulepos =
          some (0, Ogg.submitting os queue iov eOS granulepos bodyStorage lacingStorage) ∧
        Pending (Ogg.submitting os queue iov eOS granulepos bodyStorage lacingStorage)
          (queue ++ segmentsOf os.granulepos iov.flatten granulepos) := by
  have hlength := iovBytes_eq hbytes
  rw [Nat.zero_add] at hlength
  have hbodyRoom : (queue.flatMap Segment.bytes).length ≤ os.bodyStorage := by
    have hbody := congrArg List.length h.body
    have hroom := h.bodyRoom
    rw [List.length_drop] at hbody
    omega
  -- What was taken is moved out first; the room is that of the whole array, so it suffices for the
  -- rest.
  have hdrop : os.dropReturned = some { os with
      bodyData := queue.flatMap Segment.bytes, bodyReturned := 0 } := by
    unfold OggStreamState.dropReturned
    rw [if_neg (Nat.not_lt.mpr h.bodyReturned), h.body]
  unfold OggStreamState.iovecin
  rw [h.allocated, if_neg Bool.noConfusion, hbytes, hdrop]
  simp only
  unfold bodyExpand
  -- The body is expanded before the lacing values, and each of the two may fail.
  cases hbody : expandStorage alloc os.bodyStorage (queue.flatMap Segment.bytes).length bytes
    1024 with
  | none => exact .inl rfl
  | some bodyStorage =>
    unfold lacingExpand
    simp only [Option.map_some, Option.bind_some]
    cases hlacing : expandStorage (fun storage => alloc (storage * 4) && alloc (storage * 8))
      os.lacingStorage os.lacingVals.length (bytes / 255 + 1) 32 with
    | none => exact .inl rfl
    | some lacingStorage =>
      -- Both arrays have room now, so that none of the stores that follow is outside of them.
      have hbodyFits := le_expandStorage hbody hbodyRoom
      have hlacingFits := le_expandStorage hlacing h.lacingRoom
      rw [hlength] at hbodyFits hlacingFits
      refine .inr ⟨bodyStorage, lacingStorage, ?_, h.submitting iov eOS granulepos hbodyFits
        hlacingFits⟩
      simp only [Option.map_some]
      unfold storePacket
      simp only [copyIov_eq hsmall hbodyFits, hlength]
      rw [if_neg (by omega)]
      rfl

/-! ### The size of a page -/

/-- The granule position of the last packet that ends among some segments, or the one that is given
if none does. -/
def granuleOf : Option (BitVec 64) → List Segment → Option (BitVec 64)
  | g, [] => g
  | g, s :: segments => granuleOf (if s.ends then s.granule else g) segments

variable {segments : List Segment}

/-- The page takes segments from the front, at least one, and has the granule position of the last
packet that ends in it. -/
theorem pageVals_eq (nfill : Int) (force : Bool) (vals acc done : Nat) {just : Nat}
    (granule : Option (BitVec 64)) (hfits : ∀ s ∈ segments, s.Fits) :
    ∃ n force', n ≤ segments.length ∧ (just < 4 → segments ≠ [] → 0 < n) ∧
      (force = true → force' = true) ∧
      pageVals nfill force vals acc done just granule (segments.map Segment.lacing) =
        (vals + n, granuleOf granule (segments.take n), force') := by
  induction segments generalizing vals acc done just granule with
  | nil => exact ⟨0, force, Nat.le_refl 0, fun _ h => absurd rfl h, id, rfl⟩
  | cons s segments ih =>
    have hrest : ∀ t ∈ segments, t.Fits := fun t ht => hfits t (List.mem_cons_of_mem _ ht)
    have hs := hfits s List.mem_cons_self
    rw [List.map_cons, pageVals]
    -- The page is full enough behind the fourth packet that ends in it, or a later one.
    by_cases hstop : nfill < acc ∧ 4 ≤ just
    · rw [if_pos hstop]
      exact ⟨0, true, Nat.zero_le _, fun h _ => by omega, fun _ => rfl, rfl⟩
    · rw [if_neg hstop]
      -- A value below 255 ends a packet, and its granule position becomes that of the page.
      by_cases hends : s.ends = true
      · rw [if_pos (hs.val_lt.mpr hends)]
        obtain ⟨n, force', hle, -, hforce, heq⟩ := @ih (vals + 1) (acc + s.lacing.val.toNat)
          (done + 1) (done + 1) s.granule hrest
        refine ⟨n + 1, force', Nat.succ_le_succ hle, fun _ _ => Nat.succ_pos n, hforce, ?_⟩
        rw [List.take_succ_cons, granuleOf, if_pos hends]
        refine heq.trans ?_
        rw [Nat.add_assoc, Nat.add_comm 1]
      · rw [if_neg fun h => hends (hs.val_lt.mp h)]
        obtain ⟨n, force', hle, -, hforce, heq⟩ := @ih (vals + 1) (acc + s.lacing.val.toNat)
          done 0 granule hrest
        refine ⟨n + 1, force', Nat.succ_le_succ hle, fun _ _ => Nat.succ_pos n, hforce, ?_⟩
        rw [List.take_succ_cons, granuleOf, if_neg hends]
        refine heq.trans ?_
        rw [Nat.add_assoc, Nat.add_comm 1]

/-- The first page takes segments of the first packet only. -/
theorem headerVals_eq (hfits : ∀ s ∈ segments, s.Fits) :
    headerVals (segments.map Segment.lacing) ≤ segments.length ∧
      (segments ≠ [] → 0 < headerVals (segments.map Segment.lacing)) ∧
      ∀ s ∈ (segments.take (headerVals (segments.map Segment.lacing))).dropLast,
        s.ends = false := by
  induction segments with
  | nil => exact ⟨Nat.le_refl 0, fun h => absurd rfl h, fun s hs => absurd hs List.not_mem_nil⟩
  | cons s segments ih =>
    obtain ⟨hle, -, hopen⟩ := ih fun t ht => hfits t (List.mem_cons_of_mem _ ht)
    have hs := hfits s List.mem_cons_self
    rw [List.map_cons, headerVals]
    -- The loop stops behind the first value below 255, so only the last of the segments may end a
    -- packet.
    by_cases hends : s.ends = true
    · rw [if_pos (hs.val_lt.mpr hends)]
      exact ⟨Nat.succ_le_succ (Nat.zero_le _), fun _ => Nat.succ_pos 0,
        fun t ht => absurd ht List.not_mem_nil⟩
    · rw [if_neg fun h => hends (hs.val_lt.mp h)]
      refine ⟨Nat.succ_le_succ hle, fun _ => Nat.succ_pos _, fun t ht => ?_⟩
      rw [List.take_succ_cons] at ht
      cases htake : segments.take (headerVals (segments.map Segment.lacing)) with
      | nil =>
        rw [htake] at ht
        exact absurd ht List.not_mem_nil
      | cons u us =>
        rw [htake, List.dropLast_cons_cons] at ht
        rw [htake] at hopen
        rcases List.mem_cons.mp ht with rfl | ht
        · exact Bool.eq_false_iff.mpr hends
        · exact hopen t ht

/-! ### Pages -/

/-- What the next page says when it takes the first `n` segments. Its flags are those of the state,
and it is continued if the first segment does not begin a packet. -/
def nextPage (os : OggStreamState) (queue : List Segment) (n : Nat) (granule : BitVec 64) :
    PageInfo where
  version := 0
  continued := queue.head?.any fun s => !s.bos
  bos := !os.bOS
  eos := os.eOS && decide (queue.length = n)
  granulepos := granule
  serialno := os.serialno
  pageno := ((BitVec.ofInt 64 (if os.pageno = -1 then 0 else os.pageno)).setWidth 32).toNat
  pieces := (queue.take n).map Segment.bytes

/-- The flags of a page. -/
theorem flags_eq (first bos : Bool) (last : Prop) [Decidable last] :
    ((((if first then 0x00 else 0x01) ||| (if bos then 0x00 else 0x02) |||
        (if last then 0x04 else 0x00) : UInt8) &&& 0x01 ≠ 0) ↔ !first) ∧
      ((((if first then 0x00 else 0x01) ||| (if bos then 0x00 else 0x02) |||
        (if last then 0x04 else 0x00) : UInt8) &&& 0x02 ≠ 0) ↔ !bos) ∧
      ((((if first then 0x00 else 0x01) ||| (if bos then 0x00 else 0x02) |||
        (if last then 0x04 else 0x00) : UInt8) &&& 0x04 ≠ 0) ↔ last) := by
  by_cases hlast : last <;> cases first <;> cases bos <;> simp only [hlast, if_true, if_false] <;>
    decide

/-- The header of a page of the first segments. -/
theorem Pending.pageHeader_eq (h : Pending os queue) {n : Nat} (hle : n ≤ queue.length)
    (flags : UInt8) (granule : BitVec 64) (pageno : Int) :
    os.pageHeader flags granule pageno n =
      headerStart flags granule os.serialno pageno ++ [0, 0, 0, 0] ++
        UInt8.ofNat ((queue.take n).map Segment.bytes).length ::
          tableOf ((queue.take n).map Segment.bytes) := by
  have hcount : ((queue.take n).map Segment.bytes).length = n := by
    rw [List.length_map, List.length_take, Nat.min_eq_left hle]
  have htable : (os.lacingVals.take n).map Lacing.val =
      tableOf ((queue.take n).map Segment.bytes) := by
    rw [h.lacing, ← List.map_take, tableOf, List.map_map, List.map_map]
    rfl
  unfold pageHeader headerStart
  rw [htable, hcount]
  simp only [List.append_assoc, List.cons_append, List.nil_append]

/-- The flags of the next page say what its first segment and the state say. -/
theorem Pending.flags_eq (h : Pending os queue) (n : Nat) {s : Segment} {flags : UInt8}
    (hflags : flags = (if s.lacing.bos then 0x00 else 0x01) ||| (if os.bOS then 0x00 else 0x02) |||
      (if os.eOS ∧ os.lacingVals.length = n then 0x04 else 0x00)) :
    decide (flags &&& 0x01 ≠ 0) = !s.bos ∧ decide (flags &&& 0x02 ≠ 0) = !os.bOS ∧
      decide (flags &&& 0x04 ≠ 0) = (os.eOS && decide (queue.length = n)) := by
  obtain ⟨hcontinued, hbos, heos⟩ :=
    Ogg.flags_eq s.bos os.bOS (os.eOS ∧ os.lacingVals.length = n)
  have hqueue : os.lacingVals.length = queue.length := by rw [h.lacing, List.length_map]
  rw [hflags]
  refine ⟨Bool.eq_iff_iff.mpr (decide_eq_true_iff.trans hcontinued),
    Bool.eq_iff_iff.mpr (decide_eq_true_iff.trans hbos), ?_⟩
  rw [Bool.eq_iff_iff, decide_eq_true_iff, Bool.and_eq_true, decide_eq_true_iff, ← hqueue]
  exact heos

/-- The state behind a page of the first segments: they are dropped, and the page number moves
on. -/
def flushing (os : OggStreamState) (queue : List Segment) (n : Nat) : OggStreamState :=
  { os with
    bOS := true
    pageno := (if os.pageno = -1 then 0 else os.pageno) + 1
    lacingVals := os.lacingVals.drop n
    bodyReturned := os.bodyReturned + ((queue.take n).flatMap Segment.bytes).length }

/-- The octets of the first segments, and those of the others. -/
theorem Pending.body_eq (h : Pending os queue) (n : Nat) :
    os.bodyData.drop os.bodyReturned =
        (queue.take n).flatMap Segment.bytes ++ (queue.drop n).flatMap Segment.bytes ∧
      os.bodyReturned + ((queue.take n).flatMap Segment.bytes).length ≤ os.bodyData.length := by
  have hbody : os.bodyData.drop os.bodyReturned =
      (queue.take n).flatMap Segment.bytes ++ (queue.drop n).flatMap Segment.bytes := by
    rw [h.body, ← List.flatMap_append, List.take_append_drop]
  have hlength := congrArg List.length hbody
  have hreturned := h.bodyReturned
  rw [List.length_drop, List.length_append] at hlength
  exact ⟨hbody, by omega⟩

/-- The segments of the page are no longer pending. -/
theorem Pending.flushing (h : Pending os queue) (n : Nat) :
    Pending (flushing os queue n) (queue.drop n) := by
  obtain ⟨hbody, hreturned⟩ := h.body_eq n
  refine ⟨h.allocated, h.bodyRoom, ?_, ?_, ?_, ?_, ?_, hreturned⟩
  · show (os.lacingVals.drop n).length ≤ os.lacingStorage
    rw [List.length_drop]
    exact Nat.le_trans (Nat.sub_le _ _) h.lacingRoom
  · exact fun t ht => h.fits t (List.mem_of_mem_drop ht)
  · exact fun t ht => h.granule t (List.mem_of_mem_drop ht)
  · show os.lacingVals.drop n = _
    rw [h.lacing, List.map_drop]
  · show os.bodyData.drop (os.bodyReturned + _) = _
    rw [← List.drop_drop, hbody, List.drop_left]

/-- A page of the first segments is made. -/
theorem Pending.flushVals (h : Pending os queue) {n : Nat} {granule : BitVec 64} (hpos : 0 < n)
    (hle : n ≤ queue.length) (hmax : n ≤ 255) :
    ∃ og, os.flushVals n (some granule) = some (1, some og, Ogg.flushing os queue n) ∧ Sealed og ∧
      Shows og (nextPage os queue n granule) := by
  have htakeFits : ∀ s ∈ queue.take n, s.Fits := fun s hs => h.fits s (List.mem_of_mem_take hs)
  have hpieces : ∀ b ∈ (queue.take n).map Segment.bytes, b.length ≤ 255 := by
    intro b hb
    obtain ⟨s, hs, rfl⟩ := List.mem_map.mp hb
    exact htakeFits s hs
  have hcount : ((queue.take n).map Segment.bytes).length ≤ 255 := by
    rw [List.length_map, List.length_take]
    omega
  -- The page takes as many octets as the sizes in its table add up to.
  have hsum : ((os.lacingVals.take n).map fun l => l.val.toNat).sum =
      ((queue.take n).flatMap Segment.bytes).length := by
    rw [h.lacing, ← List.map_take, sum_vals htakeFits]
  obtain ⟨hbody, hreturned⟩ := h.body_eq n
  have hbytes : (os.bodyData.drop os.bodyReturned).take
      ((queue.take n).flatMap Segment.bytes).length =
        ((queue.take n).map Segment.bytes).flatten := by
    rw [hbody, List.take_left, List.flatMap_def]
  obtain ⟨s, hs⟩ : ∃ s, queue.head? = some s := by
    cases queue with
    | nil => exact absurd (Nat.lt_of_lt_of_le hpos hle) (Nat.lt_irrefl 0)
    | cons s queue => exact ⟨s, rfl⟩
  have hfirst : os.lacingVals.head? = some s.lacing := by
    rw [h.lacing, List.head?_map, hs]
    rfl
  -- The octet of flags is given a name: the header and the page's statement both read it.
  obtain ⟨flags, hflags⟩ : ∃ flags : UInt8, flags = (if s.lacing.bos then 0x00 else 0x01) |||
      (if os.bOS then 0x00 else 0x02) |||
      (if os.eOS ∧ os.lacingVals.length = n then 0x04 else 0x00) := ⟨_, rfl⟩
  obtain ⟨hcontinued, hbos, heos⟩ := h.flags_eq n hflags
  obtain ⟨og, hog, hsealed, hshows⟩ := @sealed_page flags granule os.serialno
    (if os.pageno = -1 then 0 else os.pageno) _ hpieces hcount
  refine ⟨og, ?_, hsealed, ?_⟩
  · unfold OggStreamState.flushVals
    rw [hfirst]
    simp only [Option.bind_eq_bind, Option.bind_some, hsum, ← hflags, h.pageHeader_eq hle, hbytes,
      hog]
    rw [if_neg (by omega)]
    rfl
  · rw [hcontinued, hbos, heos] at hshows
    unfold nextPage
    rw [hs]
    exact hshows

/-- How a call for a page ends: there is no page, or a page of the first segments is made. The
granule position is the one of the last packet that ends in it, and zero in the first page. -/
inductive Flushed (os : OggStreamState) (queue : List Segment) (force : Bool) :
    Int × Option OggPage × OggStreamState → Prop
  | nothing (hforce : force = true → queue = []) : Flushed os queue force (0, none, os)
  | page (n : Nat) (granule : BitVec 64) (og : OggPage) (hpos : 0 < n)
      (hle : n ≤ queue.length) (hmax : n ≤ 255)
      (hgranule : some granule =
        if os.bOS then granuleOf (some (-1)) (queue.take n) else some 0)
      (hfirst : os.bOS = false → ∀ s ∈ (queue.take n).dropLast, s.ends = false)
      (hsealed : Sealed og) (hshows : Shows og (nextPage os queue n granule)) :
      Flushed os queue force (1, some og, flushing os queue n)

/-- The granule position of a page is known if those of its segments are. -/
theorem granuleOf_isSome {granule : Option (BitVec 64)} (hgranule : granule.isSome = true)
    (hsegments : ∀ s ∈ segments, s.granule.isSome = true) :
    (granuleOf granule segments).isSome = true := by
  induction segments generalizing granule with
  | nil => exact hgranule
  | cons s segments ih =>
    refine ih ?_ fun t ht => hsegments t (List.mem_cons_of_mem _ ht)
    split
    · exact hsegments s List.mem_cons_self
    · exact hgranule

/-- What is decided about the next page. -/
theorem Pending.chooseVals (h : Pending os queue) (force : Bool) (nfill : Int) (hne : queue ≠ []) :
    ∃ n granule force', os.chooseVals force nfill (os.lacingVals.take 255) =
        (n, some granule, force') ∧ 0 < n ∧ n ≤ queue.length ∧ n ≤ 255 ∧
      (force = true → force' = true) ∧
      some granule = (if os.bOS then granuleOf (some (-1)) (queue.take n) else some 0) ∧
      (os.bOS = false → ∀ s ∈ (queue.take n).dropLast, s.ends = false) := by
  have htake : os.lacingVals.take 255 = (queue.take 255).map Segment.lacing := by
    rw [h.lacing, List.map_take]
  have hfits : ∀ s ∈ queue.take 255, s.Fits := fun s hs => h.fits s (List.mem_of_mem_take hs)
  have hne' : queue.take 255 ≠ [] := by
    intro hnil
    rcases List.take_eq_nil_iff.mp hnil with hzero | hnil
    · cases hzero
    · exact hne hnil
  have hlength : (queue.take 255).length ≤ queue.length ∧ (queue.take 255).length ≤ 255 := by
    rw [List.length_take]
    omega
  have htakes : ∀ {n}, n ≤ (queue.take 255).length → (queue.take 255).take n = queue.take n := by
    intro n hn
    rw [List.take_take, Nat.min_eq_left (by omega)]
  unfold OggStreamState.chooseVals
  rw [htake]
  -- The first page of a stream holds the initial packet alone, with granule position zero.
  cases os.bOS with
  | true =>
    obtain ⟨n, force', hle, hpos, hforce, hvals⟩ :=
      @pageVals_eq _ nfill force 0 0 0 0 (some (-1)) hfits
    obtain ⟨granule, hgranule⟩ := Option.isSome_iff_exists.mp
      (@granuleOf_isSome (queue.take n) (some (-1)) rfl
        fun s hs => h.granule s (List.mem_of_mem_take hs))
    rw [if_pos rfl, hvals]
    refine ⟨n, granule, force' || n == 255, ?_, hpos (by decide) hne', by omega, by omega, ?_,
      hgranule.symm, fun h => absurd h (by decide)⟩
    · rw [htakes hle, hgranule, Nat.zero_add]
    · intro hf
      rw [hforce hf]
      rfl
  | false =>
    obtain ⟨hle, hpos, hopen⟩ := headerVals_eq hfits
    refine ⟨_, 0, force, rfl, hpos hne', by omega, by omega, id, rfl, fun _ => ?_⟩
    rw [htakes hle] at hopen
    exact hopen

/-- A call of `ogg_stream_flush_i` returns a page of segments that were waiting, or leaves all as it
was. -/
theorem Pending.flushI (h : Pending os queue) (force : Bool) (nfill : Int) :
    ∃ result, os.flushI force nfill = some result ∧ Flushed os queue force result := by
  unfold OggStreamState.flushI
  cases hqueue : queue with
  | nil =>
    have hnil : os.lacingVals = [] := by rw [h.lacing, hqueue]; rfl
    rw [hnil]
    exact ⟨_, if_pos (.inr rfl), .nothing fun _ => rfl⟩
  | cons s rest =>
    have hne : queue ≠ [] := by rw [hqueue]; exact List.cons_ne_nil s rest
    rw [← hqueue]
    have hsome : ¬(os.allocated = false ∨ (os.lacingVals.take 255).isEmpty = true) := by
      rw [h.allocated, h.lacing, hqueue]
      exact not_or.mpr ⟨Bool.noConfusion, Bool.noConfusion⟩
    obtain ⟨n, granule, force', hchosen, hpos, hle, hmax, hforce, hgranule, hfirst⟩ :=
      h.chooseVals force nfill hne
    simp only [if_neg hsome, hchosen]
    by_cases hmade : force' = true
    · obtain ⟨og, hflush, hsealed, hshows⟩ := @Pending.flushVals _ _ h n granule hpos hle hmax
      rw [if_pos hmade]
      exact ⟨_, hflush, .page n granule og hpos hle hmax hgranule hfirst hsealed hshows⟩
    · rw [if_neg hmade]
      exact ⟨_, rfl, .nothing fun hf => absurd (hforce hf) hmade⟩

end TSubSpec.Ogg
