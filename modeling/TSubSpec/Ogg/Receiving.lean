import TSubSpec.Lib.Paging
import TSubSpec.Ogg.Decoding

/-!
# `TSubSpec.Ogg.Receiving`: what a stream state makes of the pages that arrive

A stream state that takes pages is a `Paging.Receiver`: the segments in its queue behind the last
complete packet are what the receiver carries, and `pageno` is the number that it expects.
`reported_of_steps` is that in every run, of any consistent pages in any order, the packets and the
gaps that it gives are those that the receiver reports, and that it numbers them, until an
allocation fails and the state is cleared. The mark of the end of the stream is left out:
`ogg_stream_pagein` sets it on the last segment of the queue, which need not come from the page that
has the mark.
-/

set_option autoImplicit false

namespace TSubSpec.Ogg

open TSubSpec.Lib Lacing Segment OggStreamState

/-! ### Pages -/

/-- The body, cut by the segment table. A body that is too short gives shorter pieces at the end. -/
def OggPage.pieces (og : OggPage) : List Bytes := cut ((og.table.getD []).map UInt8.toNat) og.body

/-- What the page brings, without the mark of the end of the stream, as a page of the receiver. -/
def OggPage.toPage (og : OggPage) : Paging.Page Segment :=
  ⟨og.pageno.getD 0, og.continued.getD false,
    decorate (og.bos.getD false) false (og.granulepos.getD 0) og.pieces⟩

/-- The page is one of the stream, and of the version that is known. Other pages are refused, and
change nothing. -/
def OggPage.addressed (og : OggPage) (serialno : BitVec 32) : Bool :=
  og.serialno = some serialno ∧ og.version = some 0

variable {os : OggStreamState} {og : OggPage} {info : PageInfo} {queue : List Segment}

/-- The pieces of a page are those its header shows. -/
theorem Shows.pieces_eq (h : Shows og info) : og.pieces = info.pieces := by
  unfold OggPage.pieces
  rw [h.table, h.body, Option.getD_some, map_toNat_tableOf h.fits]
  have hcut := cut_flatten info.pieces []
  rwa [List.append_nil] at hcut

/-- The page that a header shows, in the terms of the receiver that only follows page numbers. -/
theorem Shows.toPage_eq (h : Shows og info) :
    og.toPage = ⟨info.pageno, info.continued,
      decorate info.bos false info.granulepos info.pieces⟩ := by
  unfold OggPage.toPage
  rw [h.pageno, h.continued, h.bos, h.granulepos, h.pieces_eq]
  rfl

/-- A page goes to the stream with its serial number, if its version is the one that is read. -/
theorem Shows.addressed_iff (h : Shows og info) (serialno : BitVec 32) :
    og.addressed serialno = true ↔ info.serialno = serialno ∧ info.version = 0 := by
  unfold OggPage.addressed
  rw [decide_eq_true_iff, h.serialno, h.version, Option.some_inj, Option.some_inj]

/-! ### Without the mark of the end -/

/-- The segment without the mark of the end of the stream, which the source may set on a segment of
an earlier page. -/
def Segment.plain (s : Segment) : Segment := { s with eos := false }

/-- The packet without that mark, and without its number. -/
def OggPacket.plain (op : OggPacket) : OggPacket := { op with eOS := false, packetno := 0 }

/-- What a complete group of the queue gives: a packet, or the report of a gap. The packet has no
number yet. -/
def heard (g : List Segment) : Option OggPacket := packetOf 0 (g.map plain)

/-- Forgetting the marks of the last segments does not change how segments form packets. -/
theorem groups_plain (queue : List Segment) :
    groups ends (queue.map plain) = (groups ends queue).map (List.map plain) :=
  groups_map plain queue

/-- Forgetting the marks does not change the unfinished rest. -/
theorem rest_plain (queue : List Segment) :
    rest ends (queue.map plain) = (rest ends queue).map plain := rest_map plain queue

/-- The segments of a page without the mark of the last one are plain. -/
theorem plain_decorate {bos : Bool} {granulepos : BitVec 64} (pieces : List Bytes) :
    (decorate bos false granulepos pieces).map plain = decorate bos false granulepos pieces := by
  induction pieces generalizing bos with
  | nil => rfl
  | cons b bs ih => rw [decorate, List.map_cons, ih, plain, Bool.false_and]

/-- The mark of the last segment is what `plain` forgets. -/
theorem plain_markLast (eos : Bool) (queue : List Segment) :
    (markLast eos queue).map plain = queue.map plain := by
  unfold markLast
  split
  · have h := map_modify (fun s : Segment => { s with eos := true }) plain id (fun _ => rfl) queue
      (queue.length - 1)
    rwa [List.modify_id] at h
  · rfl

/-- The packet of a group does not depend on the marks. -/
theorem heard_plain (g : List Segment) : heard (g.map plain) = heard g := by
  unfold heard
  rw [List.map_map]
  rfl

/-- The octets of a group do not depend on the marks. -/
theorem bytes_plain (g : List Segment) :
    (g.map plain).flatMap Segment.bytes = g.flatMap Segment.bytes :=
  List.flatMap_map ..

/-- The packet of a group: none for the mark of missing pages, else the octets of the segments with
the flag of the first and the granule position of the last. -/
theorem heard_cons (s : Segment) (g : List Segment) :
    heard (s :: g) = if s.gap then none else
      some ⟨(s :: g).flatMap Segment.bytes, s.bos, false,
        (((s :: g).getLast?.bind Segment.granule).getD 0), 0⟩ := by
  have heos : ((s :: g).map plain).any Segment.eos = false := by
    rw [List.any_map]
    exact List.any_eq_false.mpr fun _ _ => Bool.false_ne_true
  have hgranule : ((s :: g).map plain).getLast?.bind Segment.granule =
      (s :: g).getLast?.bind Segment.granule := by
    rw [List.getLast?_map, Option.bind_map]
    rfl
  have hpacket : heard (s :: g) = if s.gap then none else
      some ⟨((s :: g).map plain).flatMap Segment.bytes, s.bos, ((s :: g).map plain).any Segment.eos,
        ((((s :: g).map plain).getLast?.bind Segment.granule).getD 0), 0⟩ := rfl
  rw [hpacket, bytes_plain, heos, hgranule]

/-- Without its number and the mark of the stream's end, the packet that is filled in is the one
heard. -/
theorem plain_packetOf (packetno : Nat) (g : List Segment) :
    (packetOf packetno g).map OggPacket.plain = heard g := by
  cases g with
  | nil => rfl
  | cons s g =>
    rw [heard_cons, packetOf]
    split <;> rfl

/-- A packet that is filled in has the number of the state. -/
theorem number_of_packetOf {packetno : Nat} {g : List Segment} {op : OggPacket}
    (h : packetOf packetno g = some op) : op.packetno = packetno := by
  cases g with
  | nil => cases h
  | cons s g =>
    rw [packetOf] at h
    split at h
    · cases h
    · cases h
      rfl

/-! ### One page -/

/-- The number that is expected. There is none behind a reset, which the source stores as -1. -/
def expected : Option Nat → Int
  | none => -1
  | some n => n

/-- The decoder is the receiver, and has given the reports but for those in its queue. The queue
begins with the groups that were completed and not taken, and ends with what the receiver
carries. -/
structure Tracks (d : Decoder) (s : Paging.Receiver Segment) (told : List (Option (List Segment)))
    (queue : List Segment) : Prop where
  queued : Queued d.state queue
  regular : Regular queue
  carry : (rest ends queue).map plain = s.carry
  next : d.state.pageno = expected s.next
  log : d.log.map (Option.map OggPacket.plain) ++ (groups ends queue).map heard =
    told.map (Option.bind · heard)
  count : d.state.packetno = d.log.length
  numbers : ∀ (i : Nat) (op : OggPacket), d.log[i]? = some (some op) → op.packetno = i

/-- The test of the page number succeeds exactly on the page that is expected next. -/
theorem expected_iff (n : Nat) (next : Option Nat) :
    (n : Int) = expected next ↔ some n = next := by
  cases next with
  | none =>
    refine iff_of_false ?_ (Option.some_ne_none n)
    show ¬(n : Int) = -1
    omega
  | some m =>
    show (n : Int) = m ↔ _
    rw [Option.some_inj, Int.ofNat_inj]

/-- The state expects no page, which it stores as -1, exactly if none was read. -/
theorem expected_none (next : Option Nat) : expected next = -1 ↔ next = none := by
  cases next with
  | none => exact iff_of_true rfl rfl
  | some m =>
    refine iff_of_false ?_ (Option.some_ne_none m)
    show ¬(m : Int) = -1
    omega

variable {d : Decoder} {s : Paging.Receiver Segment} {told : List (Option (List Segment))}

/-- Before the segments of the page are stored, a packet in progress is dropped if the page is
another one than the one that is expected. -/
theorem Tracks.before (h : Tracks d s told queue) (info : PageInfo) :
    (groups ends (d.state.before info queue)).map heard =
        (groups ends queue).map heard ++ (s.gap info.pageno).map (Option.bind · heard) ∧
      (rest ends (d.state.before info queue)).map plain = s.carried info.pageno := by
  unfold OggStreamState.before Paging.Receiver.gap Paging.Receiver.carried
  rw [h.next]
  by_cases hnext : some info.pageno = s.next
  · rw [if_pos ((expected_iff _ _).mpr hnext), if_pos (.inr hnext.symm), if_pos hnext]
    exact ⟨(List.append_nil _).symm, h.carry⟩
  · rw [if_neg fun heq => hnext ((expected_iff _ _).mp heq), if_neg hnext]
    obtain ⟨hgroups, hrest⟩ := groups_resumed d.state queue
    rw [hgroups, hrest, List.map_append, h.next, if_congr (expected_none s.next) rfl rfl]
    refine ⟨?_, rfl⟩
    by_cases hnone : s.next = none
    · rw [if_pos hnone, if_pos (.inl hnone)]
      rfl
    · rw [if_neg hnone, if_neg]
      · rfl
      · rintro (hnone' | hsome)
        · exact hnone hnone'
        · exact hnext hsome.symm

/-- What is stored of the page is what the receiver keeps of it. -/
theorem Tracks.stored (h : Tracks d s told queue) (hshows : Shows og info) :
    decorate (info.bos && !d.state.skips info queue) false info.granulepos
        (d.state.storedPieces info queue) = s.kept ends og.toPage := by
  have hskips : d.state.skips info queue = (info.continued && (s.carried info.pageno).isEmpty) := by
    rw [← (h.before info).2, List.isEmpty_map]
    rfl
  rw [hshows.toPage_eq]
  unfold OggStreamState.storedPieces Paging.Receiver.kept
  simp only [← hskips]
  cases d.state.skips info queue with
  | false =>
    rw [Bool.not_false, Bool.and_true]
    rfl
  | true =>
    rw [Bool.not_true, Bool.and_false, if_pos rfl, if_pos rfl, behind_decorate]

/-- A page that is stored is accepted by the receiver. -/
theorem Tracks.pagein (h : Tracks d s told queue) (hshows : Shows og info)
    {bodyStorage lacingStorage : Nat}
    (hqueued : Queued (d.state.taking info queue bodyStorage lacingStorage)
      (d.state.accepted info queue)) :
    Tracks { d with state := d.state.taking info queue bodyStorage lacingStorage }
      (s.accept ends og.toPage)
      (told ++ (s.gap og.toPage.number ++ (s.messages ends og.toPage).map some))
      (d.state.accepted info queue) := by
  have hnumber : og.toPage.number = info.pageno := congrArg Paging.Page.number hshows.toPage_eq
  obtain ⟨hgroups, hrest⟩ := h.before info
  -- Without the marks that the decoder puts on them, the new segments are those that the receiver
  -- keeps.
  have hplain : (d.state.accepted info queue).map plain =
      (d.state.before info queue).map plain ++ s.kept ends og.toPage := by
    unfold OggStreamState.accepted
    rw [plain_markLast, List.map_append, plain_decorate, h.stored hshows]
  -- The packets that the page completes come behind those that wait already.
  have hsplit : (groups ends (d.state.accepted info queue)).map heard =
      (groups ends (d.state.before info queue)).map heard ++
        (s.messages ends og.toPage).map heard := by
    have hcomp : ∀ q : List Segment, (groups ends q).map heard =
        (groups ends (q.map plain)).map heard := by
      intro q
      rw [groups_plain, List.map_map]
      exact List.map_congr_left fun g _ => (heard_plain g).symm
    rw [hcomp, hplain, groups_append, List.map_append, ← hcomp, rest_plain, hrest]
    unfold Paging.Receiver.messages
    rw [hnumber]
  refine ⟨hqueued, h.regular.accepted info, ?_, ?_, ?_, h.count, h.numbers⟩
  · show _ = rest ends (s.carried og.toPage.number ++ s.kept ends og.toPage)
    rw [← rest_plain, hplain, rest_append, rest_plain, hrest, hnumber]
  · show (info.pageno + 1 : Int) = expected (some (og.toPage.number + 1))
    rw [hnumber]
    rfl
  · show d.log.map _ ++ _ = _
    rw [hsplit, hgroups, ← List.append_assoc, ← List.append_assoc, h.log, hnumber, List.map_append,
      List.map_append, List.map_map, List.append_assoc]
    rfl

/-! ### One packet -/

/-- The group at the head of the queue goes to the log. -/
theorem Tracks.taken (h : Tracks d s told queue) {g : List Segment} {gs : List (List Segment)}
    (hgroups : groups ends queue = g :: gs) :
    Tracks ⟨d.state.taken g, d.log ++ [packetOf d.state.packetno g]⟩ s told
      (gs.flatten ++ rest ends queue) := by
  obtain ⟨hgs, hrest⟩ := groups_tail hgroups
  refine ⟨queued_taken h.queued hgroups, h.regular.tail hgroups, ?_, h.next, ?_, ?_, ?_⟩
  · rw [hrest, h.carry]
  · rw [hgs, ← h.log, hgroups, List.map_append, List.map_singleton, List.append_assoc,
      plain_packetOf]
    rfl
  · show d.state.packetno + 1 = _
    rw [h.count, List.length_append]
    rfl
  · intro i op hi
    by_cases hlt : i < d.log.length
    · rw [List.getElem?_append_left hlt] at hi
      exact h.numbers i op hi
    · have hlast : i = d.log.length := by
        have hle := (List.getElem?_eq_some_iff.mp hi).1
        rw [List.length_append, List.length_singleton] at hle
        omega
      rw [hlast, List.getElem?_concat_length] at hi
      rw [hlast, ← h.count]
      exact number_of_packetOf (Option.some.inj hi)

/-- A call to get a packet takes the group at the head of the queue, or leaves all as it is. -/
theorem Tracks.packetoutI (h : Tracks d s told queue) (op adv : Bool)
    (hop : adv = true → op = true) :
    ∃ ret packet os' queue', d.state.packetoutI op adv = some (ret, packet, os') ∧
      os'.serialno = d.state.serialno ∧
      Tracks ⟨os', d.log ++ tookOut adv (ret, packet)⟩ s told queue' := by
  have hcall := packetoutI_eq h.queued h.regular.groups op adv
  have hkeep : Tracks ⟨d.state, d.log ++ []⟩ s told queue := by
    rw [List.append_nil]
    exact h
  cases hgroups : groups ends queue with
  -- Nothing is complete: the call leaves the stream as it is.
  | nil =>
    rw [hgroups] at hcall
    exact ⟨_, _, d.state, queue, hcall, rfl, hkeep⟩
  | cons g gs =>
    rw [hgroups] at hcall
    have htaken := h.taken hgroups
    -- The first group is a packet, or the mark of a gap, which is given only once.
    cases hpacket : packetOf d.state.packetno g with
    | none =>
      simp only [hpacket] at hcall
      rw [hpacket] at htaken
      exact ⟨_, _, _, _, hcall, rfl, htaken⟩
    | some packet =>
      simp only [hpacket] at hcall
      cases adv with
      | true =>
        obtain rfl := hop rfl
        rw [hpacket] at htaken
        exact ⟨_, _, _, _, hcall, rfl, htaken⟩
      | false => exact ⟨_, _, _, _, hcall, rfl, hkeep⟩

/-- If there is no packet the log has all reports. -/
theorem Tracks.complete (h : Tracks d s told queue) {op : Bool} {packet : Option OggPacket}
    {os : OggStreamState} (hzero : d.state.packetout op = some (0, packet, os)) :
    d.log.map (Option.map OggPacket.plain) = told.map (Option.bind · heard) := by
  have hcall := packetoutI_eq h.queued h.regular.groups op true
  rw [(packetout_allowed h.queued.allocated op).1] at hzero
  have hlog := h.log
  cases hgroups : groups ends queue with
  | nil =>
    rw [hgroups, List.map_nil, List.append_nil] at hlog
    exact hlog
  | cons g gs =>
    rw [hgroups] at hcall
    have hanswer := Option.some.inj (hzero.symm.trans hcall)
    cases hpacket : packetOf d.state.packetno g with
    | none =>
      simp only [hpacket] at hanswer
      cases hanswer
    | some packet' =>
      simp only [hpacket] at hanswer
      cases hanswer

/-! ### Runs -/

/-- A decoder and the pages that it got since the last reset. Behind a reset no page is expected. -/
structure Listener where
  decoder : Decoder
  first : Option Nat
  arrived : List OggPage

namespace Listener

/-- A stream state that `ogg_stream_init` left. The first page is the one that it expects. -/
def init (alloc : Nat → Bool) (serialno : BitVec 32) : Listener :=
  ⟨⟨(OggStreamState.init alloc serialno).2, []⟩, some 0, []⟩

/-- One call. A page that is handed over is noted as arrived; a reset starts the record again. -/
def step (l : Listener) (op : DecodeOp) : Option Listener :=
  (l.decoder.step op).map fun d =>
    match op with
    | .pagein _ og => ⟨d, l.first, l.arrived ++ [og]⟩
    | .packetout _ | .packetpeek _ => { l with decoder := d }
    | .reset | .resetSerialno _ => ⟨d, none, []⟩

/-- The pages that arrived for the stream since the last reset, in the order of their arrival. -/
def pages (l : Listener) : List OggPage :=
  l.arrived.filter (·.addressed l.decoder.state.serialno)

/-- What a receiver makes of these pages: the packets that they complete, and the gaps. -/
def reports (l : Listener) : List (Option (List Segment)) :=
  (Paging.Receiver.mk l.first []).reports ends (l.pages.map OggPage.toPage)

/-- The packets that came out, without the reports of gaps between them. -/
def packets (l : Listener) : List OggPacket := l.decoder.log.filterMap id

/-- The log is that of the receiver, when the pages that arrived for the stream are given to it. -/
def Tracked (l : Listener) : Prop :=
  ∃ queue, Tracks l.decoder
    ((Paging.Receiver.mk l.first []).after ends (l.pages.map OggPage.toPage)) l.reports queue

/-- The invariant of a run. A state that was cleared says nothing of the pages any more. -/
def Invariant (l : Listener) : Prop := l.decoder.state.allocated = true → l.Tracked

end Listener

/-- The pages are consistent and their entries can be counted, and a packet that is taken out is
looked at. -/
def DecodeOp.Heard (d : Decoder) : DecodeOp → Prop
  | pagein alloc og => (pagein alloc og).Allowed d
  | packetout op => op = true
  | _ => True

instance DecodeOp.decidableHeard (d : Decoder) : (op : DecodeOp) → Decidable (op.Heard d)
  | .pagein alloc og => inferInstanceAs (Decidable ((pagein alloc og).Allowed d))
  | .packetout op => inferInstanceAs (Decidable (op = true))
  | .packetpeek _ | .reset | .resetSerialno _ => .isTrue trivial

namespace Listener

variable {l l' : Listener} {alloc : Nat → Bool} {serialno : BitVec 32}

/-- A state with nothing in its queue and nothing in its log. -/
theorem tracked_nil {os : OggStreamState} {first : Option Nat} (hqueued : Queued os [])
    (hpageno : os.pageno = expected first) (hpacketno : os.packetno = 0) :
    Tracked ⟨⟨os, []⟩, first, []⟩ :=
  ⟨[], hqueued, regular_nil, rfl, hpageno, rfl, hpacketno, fun _ _ h => by cases h⟩

/-- The listener when a page has arrived, with the state that `pagein` left. -/
def arriving (l : Listener) (og : OggPage) (os : OggStreamState) : Listener :=
  ⟨{ l.decoder with state := os }, l.first, l.arrived ++ [og]⟩

/-- A call of `pagein`, with the listener it leaves. -/
theorem step_pagein (l : Listener) (alloc : Nat → Bool) (og : OggPage) :
    l.step (.pagein alloc og) =
      (l.decoder.state.pagein alloc og).map fun r => l.arriving og r.2 := by
  unfold step Decoder.step
  rw [Option.map_map]
  rfl

/-- Of what arrives only the stream's own pages count. -/
theorem pages_arriving {og : OggPage} {os : OggStreamState}
    (hos : os.serialno = l.decoder.state.serialno) :
    (l.arriving og os).pages =
      l.pages ++ if og.addressed l.decoder.state.serialno then [og] else [] := by
  show (l.arrived ++ [og]).filter (·.addressed os.serialno) = _
  rw [hos, List.filter_append, List.filter_singleton]
  cases og.addressed l.decoder.state.serialno <;> rfl

/-- A page of another stream changes nothing, and a page of the stream is stored. -/
theorem tracked_accepted {og : OggPage} {info : PageInfo} {queue : List Segment}
    (htracks : Tracks l.decoder
      ((Paging.Receiver.mk l.first []).after ends (l.pages.map OggPage.toPage)) l.reports queue)
    (hshows : Shows og info) {r : Int × OggStreamState}
    (hr : OggStreamState.Accepted l.decoder.state queue info r)
    (hallocated : r.2.allocated = true) :
    r.2.serialno = l.decoder.state.serialno ∧ (l.arriving og r.2).Tracked := by
  have hiff := hshows.addressed_iff l.decoder.state.serialno
  cases hr with
  | foreign hother =>
    -- The page is of another stream, or of a version that is refused: it counts for neither side.
    have haddressed : ¬og.addressed l.decoder.state.serialno = true := by
      intro haddressed
      obtain ⟨hserialno, hversion⟩ := hiff.mp haddressed
      rcases hother with hother | hother
      · exact hother hserialno
      · exact absurd hversion (Nat.ne_of_gt hother)
    refine ⟨rfl, queue, ?_⟩
    unfold reports
    rw [pages_arriving, if_neg haddressed, List.append_nil]
    · exact { htracks with queued := queued_clean htracks.queued }
    · rfl
  | failed => exact absurd hallocated Bool.noConfusion
  | stored bodyStorage lacingStorage hserialno hversion hqueued =>
    have haddressed := hiff.mpr ⟨hserialno, hversion⟩
    refine ⟨rfl, l.decoder.state.accepted info queue, ?_⟩
    unfold reports
    rw [pages_arriving, if_pos haddressed, List.map_append, List.map_singleton]
    · show Tracks _ ((Paging.Receiver.mk l.first []).after ends _)
        ((Paging.Receiver.mk l.first []).reports ends _) _
      rw [Paging.Receiver.reports_concat, Paging.Receiver.after_concat]
      exact htracks.pagein hshows hqueued
    · rfl

/-- What `pagein` does to a listener that follows its pages: it returns, and unless an allocation
failed, the listener follows the pages with the new one among them. -/
theorem Tracked.pagein (h : l.Tracked) (alloc : Nat → Bool) {og : OggPage} (hog : og.Consistent)
    (hint : l.decoder.state.lacingVals.length + 256 ≤ intMax) :
    ∃ os, l.step (.pagein alloc og) = some (l.arriving og os) ∧
      (os.allocated = true →
        os.serialno = l.decoder.state.serialno ∧ (l.arriving og os).Tracked) := by
  obtain ⟨queue, htracks⟩ := h
  obtain ⟨info, hshows⟩ := hog.shows
  obtain ⟨r, hcall, hr⟩ := pagein_spec alloc htracks.queued hshows hint
  refine ⟨r.2, ?_, tracked_accepted htracks hshows hr⟩
  rw [step_pagein, hcall]
  rfl

/-- A call to get a packet keeps the log that of the receiver. -/
theorem Tracked.packetoutI (h : l.Tracked) (op adv : Bool) (hop : adv = true → op = true) :
    ∃ d, (l.decoder.state.packetoutI op adv).map
        (fun r => (⟨r.2.2, l.decoder.log ++ tookOut adv (r.1, r.2.1)⟩ : Decoder)) = some d ∧
      d.state.serialno = l.decoder.state.serialno ∧ Tracked { l with decoder := d } := by
  obtain ⟨queue, htracks⟩ := h
  obtain ⟨ret, packet, os', queue', hcall, hserialno, htracks'⟩ := htracks.packetoutI op adv hop
  refine ⟨_, by rw [hcall]; rfl, hserialno, queue', ?_⟩
  unfold reports pages
  rw [show os'.serialno = l.decoder.state.serialno from hserialno]
  exact htracks'

/-- The second state is of the same stream as the first one, if it was not cleared. So which pages
count does not change. -/
def SameStream (os os' : OggStreamState) : Prop :=
  os'.allocated = true → os.allocated = true ∧ os'.serialno = os.serialno

/-- The buffers of a listener that follows its pages are allocated. -/
theorem Tracked.allocated (h : l.Tracked) : l.decoder.state.allocated = true := by
  obtain ⟨queue, htracks⟩ := h
  exact htracks.queued.allocated

/-- What `packetout` does: the next complete packet goes to the reports, or nothing changes. -/
theorem Tracked.packetout (h : l.Tracked) :
    ∃ d, l.step (.packetout true) = some { l with decoder := d } ∧
      d.state.serialno = l.decoder.state.serialno ∧ Tracked { l with decoder := d } := by
  obtain ⟨d, hcall, hd⟩ := h.packetoutI true true id
  refine ⟨d, ?_, hd⟩
  unfold Listener.step Decoder.step
  simp only [(packetout_allowed h.allocated true).1, hcall, Option.map_some]

/-- Looking at the next packet changes nothing but the report. -/
theorem Tracked.packetpeek (h : l.Tracked) (op : Bool) :
    ∃ d, l.step (.packetpeek op) = some { l with decoder := d } ∧
      d.state.serialno = l.decoder.state.serialno ∧ Tracked { l with decoder := d } := by
  obtain ⟨d, hcall, hd⟩ := h.packetoutI op false fun hfalse => Bool.noConfusion hfalse
  refine ⟨d, ?_, hd⟩
  unfold Listener.step Decoder.step
  simp only [(packetout_allowed h.allocated op).2, hcall, Option.map_some]

/-- What is said of a state that was not cleared holds of one that was. -/
theorem of_refused {P : Prop} (hallocated : l.decoder.state.allocated = false)
    (htrue : l.decoder.state.allocated = true) : P :=
  absurd (hallocated.symm.trans htrue) Bool.noConfusion

/-- A page keeps the log that of the receiver. -/
theorem Invariant.pagein (h : l.Invariant) (alloc : Nat → Bool) {og : OggPage}
    (hog : og.Consistent) (hint : l.decoder.state.lacingVals.length + 256 ≤ intMax) :
    ∃ os, l.step (.pagein alloc og) = some (l.arriving og os) ∧
      SameStream l.decoder.state os ∧ (l.arriving og os).Invariant := by
  cases hallocated : l.decoder.state.allocated with
  | false =>
    obtain ⟨info, hshows⟩ := hog.shows
    refine ⟨l.decoder.state, ?_, of_refused hallocated, of_refused hallocated⟩
    rw [step_pagein, pagein_refused alloc hallocated hshows]
    rfl
  | true =>
    obtain ⟨os, hcall, hl⟩ := (h hallocated).pagein alloc hog hint
    exact ⟨os, hcall, fun hos => ⟨hallocated, (hl hos).1⟩, fun hos => (hl hos).2⟩

/-- A call to get a packet keeps the log that of the receiver. -/
theorem Invariant.packetout (h : l.Invariant) :
    ∃ d, l.step (.packetout true) = some { l with decoder := d } ∧
      SameStream l.decoder.state d.state ∧ Invariant { l with decoder := d } := by
  cases hallocated : l.decoder.state.allocated with
  | false =>
    obtain ⟨log, hstep⟩ := @Decoder.step_refused _ hallocated (.packetout true) trivial
    refine ⟨⟨l.decoder.state, log⟩, ?_, of_refused hallocated, of_refused hallocated⟩
    unfold Listener.step
    rw [hstep]
    rfl
  | true =>
    obtain ⟨d, hcall, hserialno, hl⟩ := (h hallocated).packetout
    exact ⟨d, hcall, fun _ => ⟨hallocated, hserialno⟩, fun _ => hl⟩

/-- Looking at the next packet keeps the invariant, whether the packet is asked for or not. -/
theorem Invariant.packetpeek (h : l.Invariant) (op : Bool) :
    ∃ d, l.step (.packetpeek op) = some { l with decoder := d } ∧
      SameStream l.decoder.state d.state ∧ Invariant { l with decoder := d } := by
  cases hallocated : l.decoder.state.allocated with
  | false =>
    obtain ⟨log, hstep⟩ := @Decoder.step_refused _ hallocated (.packetpeek op) trivial
    refine ⟨⟨l.decoder.state, log⟩, ?_, of_refused hallocated, of_refused hallocated⟩
    unfold Listener.step
    rw [hstep]
    rfl
  | true =>
    obtain ⟨d, hcall, hserialno, hl⟩ := (h hallocated).packetpeek op
    exact ⟨d, hcall, fun _ => ⟨hallocated, hserialno⟩, fun _ => hl⟩

/-- Every call keeps the log that of the receiver. -/
theorem Invariant.step (h : l.Invariant) {op : DecodeOp} (hop : op.Heard l.decoder) :
    ∃ l', l.step op = some l' ∧ l'.Invariant := by
  cases op with
  | pagein alloc og =>
    obtain ⟨os, hcall, -, hl⟩ := h.pagein alloc hop.1 hop.2
    exact ⟨_, hcall, hl⟩
  | packetout op =>
    obtain rfl : op = true := hop
    obtain ⟨d, hcall, -, hl⟩ := h.packetout
    exact ⟨_, hcall, hl⟩
  | packetpeek op =>
    obtain ⟨d, hcall, -, hl⟩ := h.packetpeek op
    exact ⟨_, hcall, hl⟩
  | reset =>
    refine ⟨_, rfl, fun hos => ?_⟩
    obtain ⟨hqueued, hpageno, hpacketno⟩ := queued_reset (allocated_of_reset hos)
    exact tracked_nil hqueued hpageno hpacketno
  | resetSerialno serialno =>
    refine ⟨_, rfl, fun hos => ?_⟩
    obtain ⟨hqueued, hpageno, hpacketno⟩ :=
      queued_resetSerialno (allocated_of_resetSerialno hos) serialno
    exact tracked_nil hqueued hpageno hpacketno

/-- The invariant holds behind every run of the calls, a failed allocation and a reset among
them. -/
theorem invariant_of_steps
    (hrun : Steps step (fun l op => op.Heard l.decoder) (init alloc serialno) l) :
    l.Invariant := by
  refine hrun.invariant (fun hallocated => ?_) ?_
  · unfold init at hallocated ⊢
    rw [init_allocated hallocated]
    exact tracked_nil (queued_fresh serialno) rfl rfl
  · intro l op l' hl hop hstep
    obtain ⟨l'', hstep', hl'⟩ := hl.step hop
    obtain rfl := Option.some.inj (hstep.symm.trans hstep')
    exact hl'

/-- In every run, of any pages in any order, the log is a part of the reports of the receiver, and
all of them when there is no packet to get, as long as `ogg_stream_check` reports no failure. The
packets have their places in the log as numbers. -/
theorem reported_of_steps
    (hrun : Steps step (fun l op => op.Heard l.decoder) (init alloc serialno) l)
    (hcheck : l.decoder.state.check = 0) :
    l.decoder.log.map (Option.map OggPacket.plain) <+: l.reports.map (Option.bind · heard) ∧
      (∀ op packet os, l.decoder.state.packetout op = some (0, packet, os) →
        l.decoder.log.map (Option.map OggPacket.plain) = l.reports.map (Option.bind · heard)) ∧
      ∀ (i : Nat) (op : OggPacket), l.decoder.log[i]? = some (some op) → op.packetno = i := by
  obtain ⟨queue, htracks⟩ := invariant_of_steps hrun (check_eq_zero.mp hcheck)
  exact ⟨⟨_, htracks.log⟩, fun op packet os => htracks.complete, htracks.numbers⟩

/-- The same page twice: the packet comes out twice, with the report of a gap between. -/
theorem reported_of_steps_twice :
    ∃ l, runActions (guarded step fun l op => decide (op.Heard l.decoder)) (init (fun _ => true) 7)
        [.pagein (fun _ => true) threeOctets, .pagein (fun _ => true) threeOctets, .packetout true,
          .packetout true, .packetout true] = some l ∧
      l.decoder.log.map (Option.map OggPacket.packet) = [some [1, 2, 3], none, some [1, 2, 3]] ∧
      (l.decoder.log.map (Option.map OggPacket.plain) <+: l.reports.map (Option.bind · heard) ∧
        (∀ op packet os, l.decoder.state.packetout op = some (0, packet, os) →
          l.decoder.log.map (Option.map OggPacket.plain) = l.reports.map (Option.bind · heard)) ∧
        ∀ (i : Nat) (op : OggPacket), l.decoder.log[i]? = some (some op) → op.packetno = i) := by
  have hrun : ((runActions (guarded step fun l op => decide (op.Heard l.decoder))
      (init (fun _ => true) 7)
      [.pagein (fun _ => true) threeOctets, .pagein (fun _ => true) threeOctets, .packetout true,
        .packetout true, .packetout true]).map fun l =>
          (l.decoder.log.map (Option.map OggPacket.packet), l.decoder.state.check)) =
            some ([some [1, 2, 3], none, some [1, 2, 3]], 0) := by
    decide +kernel
  obtain ⟨l, hl, hboth⟩ := Option.map_eq_some_iff.mp hrun
  obtain ⟨hlog, hcheck⟩ := Prod.mk.inj hboth
  exact ⟨l, hl, hlog, reported_of_steps
    (steps_of_runActions (fun _ _ h => of_decide_eq_true h) hl) hcheck⟩

end Listener

end TSubSpec.Ogg
