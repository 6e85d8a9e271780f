import TSubSpec.Lib.Machine
import TSubSpec.Ogg.Encoding

/-!
# `TSubSpec.Ogg.PageStream`: the pages of a stream

`Written` says what the pages of a logical stream are: the segments of its packets, in order, are on
the pages and in the queue; the pages are numbered, the first one is marked and has segments of the
first packet only, and a page says whether it begins inside of a packet, and the granule position of
the last packet that ends in it. `written_of_steps` is that every run makes such pages, until an
allocation fails: the state is cleared then, and takes no packet and makes no page any more.
-/

set_option autoImplicit false

namespace TSubSpec.Ogg

open TSubSpec.Lib Lacing Segment OggStreamState

/-- A call on a stream state that is used for encoding. `alloc` says which allocations of the call
succeed. -/
inductive EncodeOp
  | iovecin (alloc : Nat → Bool) (iov : List Bytes) (eOS : Bool) (granulepos : BitVec 64)
  | packetin (alloc : Nat → Bool) (op : OggPacket)
  | flush
  | flushFill (nfill : Int)
  | pageout
  | pageoutFill (nfill : Int)

/-- A stream state, the packets that it took with their granule positions, and the pages that it
made. -/
structure Encoder where
  state : OggStreamState
  packets : List (Bytes × BitVec 64)
  pages : List OggPage

namespace Encoder

/-- What is known after a packet was submitted: it was taken if the call returned zero, and it is
the last one then. -/
def took (e : Encoder) (packet : Bytes) (granulepos : BitVec 64) (r : Int × OggStreamState) :
    Encoder :=
  { e with
    state := r.2
    packets := if r.1 = 0 then e.packets ++ [(packet, granulepos)] else e.packets }

/-- What is known after a call for a page: the page, if there is one, is the last one. -/
def gave (e : Encoder) (r : Int × Option OggPage × OggStreamState) : Encoder :=
  { e with state := r.2.2, pages := e.pages ++ r.2.1.toList }

/-- One call, with a record of the packets that were taken and of the pages that were given. -/
def step (e : Encoder) : EncodeOp → Option Encoder
  | .iovecin alloc iov eOS granulepos =>
    (e.state.iovecin alloc iov eOS granulepos).map (e.took iov.flatten granulepos)
  | .packetin alloc op => (e.state.packetin alloc op).map (e.took op.packet op.granulepos)
  | .flush => e.state.flush.map e.gave
  | .flushFill nfill => (e.state.flushFill nfill).map e.gave
  | .pageout => e.state.pageout.map e.gave
  | .pageoutFill nfill => (e.state.pageoutFill nfill).map e.gave

/-- A stream state that `ogg_stream_init` left. It is cleared if an allocation of that call
fails. -/
def init (alloc : Nat → Bool) (serialno : BitVec 32) : Encoder :=
  ⟨(OggStreamState.init alloc serialno).2, [], []⟩

end Encoder

/-- The length of each piece is a number of an `int`, by which the source moves the fill mark. So is
the number of the full segments, by which it counts them. -/
def EncodeOp.Allowed : EncodeOp → Prop
  | iovecin _ iov _ _ => (∀ v ∈ iov, v.length ≤ intMax) ∧ iov.flatten.length / 255 ≤ intMax
  | packetin _ op => op.packet.length ≤ intMax
  | _ => True

instance EncodeOp.decidableAllowed : (op : EncodeOp) → Decidable op.Allowed
  | .iovecin _ iov _ _ =>
    inferInstanceAs (Decidable ((∀ v ∈ iov, v.length ≤ intMax) ∧
      iov.flatten.length / 255 ≤ intMax))
  | .packetin _ op => inferInstanceAs (Decidable (op.packet.length ≤ intMax))
  | .flush | .flushFill _ | .pageout | .pageoutFill _ => .isTrue trivial

/-- A page with what it says and the segments that it has, as the encoder stored them. -/
structure Made where
  page : OggPage
  info : PageInfo
  segments : List Segment

/-- The page with number `k`, behind the given segments. It is the first one exactly if `k` is zero,
and it is continued exactly if a packet is in progress behind them. -/
structure Made.Placed (m : Made) (serialno : BitVec 32) (k : Nat) (before : List Segment) :
    Prop where
  sealed : Sealed m.page
  shows : Shows m.page m.info
  pieces : m.info.pieces = m.segments.map Segment.bytes
  nonempty : m.segments ≠ []
  count : m.segments.length ≤ 255
  version : m.info.version = 0
  serialno : m.info.serialno = serialno
  pageno : m.info.pageno = k % 2 ^ 32
  continued : m.info.continued = !(rest ends before).isEmpty
  bos : m.info.bos = decide (k = 0)
  granulepos : some m.info.granulepos =
    if k = 0 then some 0 else granuleOf (some (-1)) m.segments
  first : k = 0 → ∀ s ∈ m.segments.dropLast, s.ends = false
  eos : m.info.eos = true → rest ends (before ++ m.segments) = []

/-- The segments of some pages. -/
def segmentsIn (made : List Made) : List Segment := made.flatMap Made.segments

/-- The packets that the stream took are on the pages and in the queue, each segment once and in
order. The pages are numbered from zero. -/
structure Written (serialno : BitVec 32) (e : Encoder) (made : List Made) (queue : List Segment) :
    Prop where
  pending : Pending e.state queue
  pages : e.pages = made.map Made.page
  segments : segmentsIn made ++ queue = (packetsOf 0 e.packets).flatten
  placed : ∀ (k : Nat) (m : Made), made[k]? = some m →
    m.Placed serialno k (segmentsIn (made.take k))
  serialno : e.state.serialno = serialno
  pageno : (if e.state.pageno = -1 then 0 else e.state.pageno) = (made.length : Int)
  bos : e.state.bOS = !made.isEmpty
  granulepos : e.state.granulepos = lastGranule 0 e.packets
  eos : e.state.eOS = true → queue = [] → ∃ m, made.getLast? = some m ∧ m.info.eos = true
  noEos : e.state.eOS = false → ∀ m ∈ made, m.info.eos = false

variable {serialno : BitVec 32} {e : Encoder} {made : List Made} {queue : List Segment}

/-- Nothing is in the pages or in the queue of a new stream. -/
theorem written_fresh (serialno : BitVec 32) : Written serialno ⟨fresh serialno, [], []⟩ [] [] where
  pending := ⟨rfl, Nat.zero_le _, Nat.zero_le _, fun _ h => absurd h List.not_mem_nil,
    fun _ h => absurd h List.not_mem_nil, rfl, rfl, Nat.le_refl 0⟩
  pages := rfl
  segments := rfl
  placed := fun _ _ h => by cases h
  serialno := rfl
  pageno := rfl
  bos := rfl
  granulepos := rfl
  eos := fun h => by cases h
  noEos := fun _ _ h => absurd h List.not_mem_nil

/-- The granule position of the last packet. -/
theorem lastGranule_concat (before : BitVec 64) (packets : List (Bytes × BitVec 64))
    (p : Bytes × BitVec 64) : lastGranule before (packets ++ [p]) = p.2 := by
  unfold lastGranule
  rw [List.getLast?_concat]
  rfl

/-- Even a packet of no octets has a segment. -/
theorem segmentsOf_ne_nil {before granulepos : BitVec 64} {packet : Bytes} :
    segmentsOf before packet granulepos ≠ [] := by
  obtain ⟨init, x, h, -⟩ : IsGroup ends (segmentsOf before packet granulepos) := isGroup_segmentsOf
  rw [h]
  exact List.append_ne_nil_of_right_ne_nil _ (List.cons_ne_nil x [])

/-- A packet that is stored waits behind the others, and no page changes. -/
theorem Written.submitting (h : Written serialno e made queue) {iov : List Bytes} {eOS : Bool}
    {granulepos : BitVec 64} {bodyStorage lacingStorage : Nat}
    (hpending : Pending (submitting e.state queue iov eOS granulepos bodyStorage lacingStorage)
      (queue ++ segmentsOf e.state.granulepos iov.flatten granulepos)) :
    Written serialno (e.took iov.flatten granulepos
        (0, Ogg.submitting e.state queue iov eOS granulepos bodyStorage lacingStorage))
      made (queue ++ segmentsOf e.state.granulepos iov.flatten granulepos) := by
  refine ⟨hpending, h.pages, ?_, h.placed, h.serialno, h.pageno, h.bos, ?_, ?_, ?_⟩
  · show _ = (packetsOf 0 (e.packets ++ [(iov.flatten, granulepos)])).flatten
    rw [packetsOf_concat, List.flatten_append, ← h.segments, List.append_assoc, h.granulepos]
    simp only [List.flatten_cons, List.flatten_nil, List.append_nil]
  · exact (lastGranule_concat 0 e.packets (iov.flatten, granulepos)).symm
  · intro _ hnil
    exact absurd (List.append_eq_nil_iff.mp hnil).2 segmentsOf_ne_nil
  · intro hfalse
    have hstate : (e.state.eOS || eOS) = false := hfalse
    exact h.noEos (Bool.or_eq_false_iff.mp hstate).1

/-- A packet is refused because of its length, or an expansion of the buffers fails and the state is
cleared, or the packet waits behind the others. -/
theorem Written.iovecin (h : Written serialno e made queue) (alloc : Nat → Bool) {iov : List Bytes}
    (eOS : Bool) (granulepos : BitVec 64) (hsmall : ∀ v ∈ iov, v.length ≤ intMax)
    (hcount : iov.flatten.length / 255 ≤ intMax) :
    ∃ r, e.state.iovecin alloc iov eOS granulepos = some r ∧
      (r.2.allocated = true →
        ∃ queue', Written serialno (e.took iov.flatten granulepos r) made queue') := by
  cases hbytes : iovBytes 0 iov with
  | none =>
    have hrefused : e.took iov.flatten granulepos (-1, e.state) = e := rfl
    refine ⟨(-1, e.state), ?_, fun _ => ⟨queue, by rw [hrefused]; exact h⟩⟩
    unfold OggStreamState.iovecin
    rw [h.pending.allocated, if_neg Bool.noConfusion, hbytes]
  | some bytes =>
    rcases h.pending.iovecin alloc eOS granulepos hbytes hsmall hcount with
      hfailed | ⟨bodyStorage, lacingStorage, hcall, hpending⟩
    · exact ⟨_, hfailed, fun hallocated => absurd hallocated Bool.noConfusion⟩
    · exact ⟨_, hcall, fun _ => ⟨_, h.submitting hpending⟩⟩

/-- The number of a page has 32 bits, so page `k` of a stream carries `k` modulo `2 ^ 32`. -/
theorem toNat_pageno (k : Nat) : ((BitVec.ofInt 64 (k : Int)).setWidth 32).toNat = k % 2 ^ 32 := by
  rw [BitVec.ofInt_natCast, BitVec.toNat_setWidth, BitVec.toNat_ofNat]
  exact Nat.mod_mod_of_dvd k (Nat.pow_dvd_pow 2 (by omega))

/-- What the next page says is right at its place. -/
theorem Written.placed_next (h : Written serialno e made queue) {n : Nat} {granule : BitVec 64}
    {og : OggPage} (hpos : 0 < n) (hle : n ≤ queue.length) (hmax : n ≤ 255)
    (hgranule : some granule =
      if e.state.bOS then granuleOf (some (-1)) (queue.take n) else some 0)
    (hfirst : e.state.bOS = false → ∀ s ∈ (queue.take n).dropLast, s.ends = false)
    (hsealed : Sealed og) (hshows : Shows og (nextPage e.state queue n granule)) :
    (Made.mk og (nextPage e.state queue n granule) (queue.take n)).Placed serialno made.length
      (segmentsIn made) := by
  obtain ⟨s, tail, rfl⟩ : ∃ s tail, queue = s :: tail := by
    cases queue with
    | nil => exact absurd (Nat.lt_of_lt_of_le hpos hle) (Nat.lt_irrefl 0)
    | cons s tail => exact ⟨s, tail, rfl⟩
  -- The segment at the front decides whether the page continues a packet.
  obtain ⟨-, -, hbos, -⟩ := segment_of_split h.segments.symm
  -- The flag is set by the first page, so it says whether one has been made.
  have hmade : e.state.bOS = false ↔ made.length = 0 := by
    rw [h.bos]
    cases made <;> simp
  refine ⟨hsealed, hshows, rfl, ?_, ?_, rfl, h.serialno, ?_, ?_, ?_, ?_, ?_, ?_⟩
  · intro hnil
    rcases List.take_eq_nil_iff.mp hnil with hzero | hnil
    · omega
    · cases hnil
  · show ((s :: tail).take n).length ≤ 255
    rw [List.length_take]
    omega
  · show ((BitVec.ofInt 64
      (if e.state.pageno = -1 then 0 else e.state.pageno)).setWidth 32).toNat = _
    rw [h.pageno, toNat_pageno]
  · show (!s.bos) = _
    rw [hbos]
  · show (!e.state.bOS) = _
    rw [Bool.eq_iff_iff, decide_eq_true_iff, ← hmade, Bool.not_eq_true']
  · show some granule = _
    rw [hgranule]
    by_cases hzero : made.length = 0
    · rw [if_pos hzero, hmade.mpr hzero]
      rfl
    · rw [if_neg hzero, if_pos (Bool.of_not_eq_false fun hfalse => hzero (hmade.mp hfalse))]
  · exact fun hzero => hfirst (hmade.mpr hzero)
  · intro heos
    -- The last flag is set only if nothing waits behind, so no packet is left open.
    have hall : (s :: tail).length = n := of_decide_eq_true (Bool.and_eq_true_iff.mp heos).2
    show rest ends (segmentsIn made ++ (s :: tail).take n) = []
    rw [← hall, List.take_length, h.segments]
    exact (groups_packetsOf 0 e.packets).2

/-- The segments of the pages, with one page more. -/
theorem segmentsIn_concat (made : List Made) (m : Made) :
    segmentsIn (made ++ [m]) = segmentsIn made ++ m.segments := by
  rw [segmentsIn, List.flatMap_append, List.flatMap_singleton]
  rfl

/-- A page that is made follows the others. -/
theorem Written.gave {force : Bool} {r : Int × Option OggPage × OggStreamState}
    (h : Written serialno e made queue) (hr : Flushed e.state queue force r) :
    ∃ made' queue', Written serialno (e.gave r) made' queue' := by
  cases hr with
  -- No page was made, and nothing changes.
  | nothing hforce =>
    refine ⟨made, queue, { h with pages := ?_ }⟩
    show e.pages ++ [] = _
    rw [List.append_nil, h.pages]
  | page n granule og hpos hle hmax hgranule hfirst hsealed hshows =>
    -- The page takes the first segments of the queue, and gets the next number.
    have hplaced := h.placed_next hpos hle hmax hgranule hfirst hsealed hshows
    obtain ⟨m, hm⟩ : ∃ m, m = Made.mk og (nextPage e.state queue n granule) (queue.take n) :=
      ⟨_, rfl⟩
    rw [← hm] at hplaced
    have hmeos : m.info.eos = (e.state.eOS && decide (queue.length = n)) := by
      rw [hm]
      rfl
    refine ⟨made ++ [m], queue.drop n, h.pending.flushing n, ?_, ?_, ?_, h.serialno, ?_, ?_,
      h.granulepos, ?_, ?_⟩
    · show e.pages ++ [og] = _
      rw [h.pages, List.map_append, hm]
      rfl
    · show _ = (packetsOf 0 e.packets).flatten
      rw [segmentsIn_concat, ← h.segments, hm, List.append_assoc, List.take_append_drop]
    · -- Each of the pages before keeps its place, and the new one is behind them.
      intro k m' hk
      by_cases hlt : k < made.length
      · rw [List.getElem?_append_left hlt] at hk
        rw [List.take_append_of_le_length (Nat.le_of_lt hlt)]
        exact h.placed k m' hk
      · have hk' : k = made.length := by
          have hsome := (List.getElem?_eq_some_iff.mp hk).1
          rw [List.length_append, List.length_singleton] at hsome
          omega
        subst hk'
        rw [List.getElem?_concat_length] at hk
        rw [← Option.some.inj hk, List.take_left]
        exact hplaced
    · have hnext : (flushing e.state queue n).pageno = (made.length : Int) + 1 :=
        congrArg (· + 1) h.pageno
      show (if (flushing e.state queue n).pageno = -1 then 0
        else (flushing e.state queue n).pageno) = _
      rw [hnext, List.length_append, List.length_singleton, if_neg (by omega)]
      omega
    · show true = _
      cases made <;> rfl
    · -- The last page ends the stream when it takes the last segments of a stream that has ended.
      intro htrue hnil
      have htrue' : e.state.eOS = true := htrue
      have hlength := List.drop_eq_nil_iff.mp hnil
      refine ⟨m, List.getLast?_concat, ?_⟩
      rw [hmeos, htrue', decide_eq_true (by omega)]
      rfl
    · intro hfalse m' hm'
      have hfalse' : e.state.eOS = false := hfalse
      rcases List.mem_append.mp hm' with hm' | hm'
      · exact h.noEos hfalse' m' hm'
      · rw [List.mem_singleton.mp hm', hmeos, hfalse']
        rfl

/-- The invariant of a run. A state that was cleared says nothing of the packets any more. -/
def Encoder.Invariant (serialno : BitVec 32) (e : Encoder) : Prop :=
  e.state.allocated = true → ∃ made queue, Written serialno e made queue

/-- No call on a state that was cleared has a fault, and it stays as it is. -/
theorem Encoder.step_refused (h : e.state.allocated = false) (op : EncodeOp) :
    ∃ e', e.step op = some e' ∧ e'.state.allocated = false := by
  have hiovecin : ∀ alloc iov eOS granulepos,
      e.state.iovecin alloc iov eOS granulepos = some (-1, e.state) := fun _ _ _ _ => if_pos h
  have hflush : ∀ force nfill, e.state.flushI force nfill = some (0, none, e.state) :=
    fun _ _ => if_pos (.inl h)
  unfold Encoder.step
  cases op with
  | iovecin alloc iov eOS granulepos =>
    simp only [hiovecin, Option.map_some]
    exact ⟨_, rfl, h⟩
  | packetin alloc op =>
    simp only [packetin, hiovecin, Option.map_some]
    exact ⟨_, rfl, h⟩
  | flush | flushFill nfill | pageout | pageoutFill nfill =>
    simp only [flush, flushFill, pageout, pageoutFill, hflush, Option.map_some]
    exact ⟨_, rfl, h⟩

/-- Every call keeps what is said of the pages. -/
theorem Written.step (h : Written serialno e made queue) {op : EncodeOp} (hop : op.Allowed) :
    ∃ e', e.step op = some e' ∧ e'.Invariant serialno := by
  -- The four calls for a page are one loop with other limits.
  have hflush : ∀ force nfill, ∃ e', (e.state.flushI force nfill).map e.gave = some e' ∧
      e'.Invariant serialno := by
    intro force nfill
    obtain ⟨r, hcall, hr⟩ := h.pending.flushI force nfill
    exact ⟨_, by rw [hcall]; rfl, fun _ => h.gave hr⟩
  cases op with
  | iovecin alloc iov eOS granulepos =>
    obtain ⟨r, hcall, hwritten⟩ := h.iovecin alloc eOS granulepos hop.1 hop.2
    refine ⟨_, ?_, fun hallocated => ⟨made, hwritten hallocated⟩⟩
    show (e.state.iovecin alloc iov eOS granulepos).map _ = _
    rw [hcall]
    rfl
  | packetin alloc op =>
    -- `ogg_stream_packetin` is `ogg_stream_iovecin` with one piece.
    have hpacket : [op.packet].flatten = op.packet := List.append_nil _
    have hsmall : ∀ v ∈ [op.packet], v.length ≤ intMax := fun v hv => by
      rw [List.mem_singleton.mp hv]
      exact hop
    have hcount : [op.packet].flatten.length / 255 ≤ intMax := by
      rw [hpacket]
      exact Nat.le_trans (Nat.div_le_self _ _) hop
    obtain ⟨r, hcall, hwritten⟩ := h.iovecin alloc op.eOS op.granulepos hsmall hcount
    rw [hpacket] at hwritten
    refine ⟨_, ?_, fun hallocated => ⟨made, hwritten hallocated⟩⟩
    show ((e.state.iovecin alloc [op.packet] op.eOS op.granulepos).map _) = _
    rw [hcall]
    rfl
  | flush => exact hflush true 4096
  | flushFill nfill => exact hflush true nfill
  | pageout => exact hflush _ 4096
  | pageoutFill nfill => exact hflush _ nfill

/-- One call keeps the invariant: it returns, and the pages it adds are the next ones. -/
theorem Encoder.Invariant.step (h : e.Invariant serialno) {op : EncodeOp} (hop : op.Allowed) :
    ∃ e', e.step op = some e' ∧ e'.Invariant serialno := by
  cases hallocated : e.state.allocated with
  | false =>
    obtain ⟨e', hstep, hfalse⟩ := e.step_refused hallocated op
    refine ⟨e', hstep, fun htrue => ?_⟩
    exact absurd (hfalse.symm.trans htrue) Bool.noConfusion
  | true =>
    obtain ⟨made, queue, hwritten⟩ := h hallocated
    exact hwritten.step hop

variable {alloc : Nat → Bool}

/-- The invariant holds in every state of a run, whatever allocations fail. -/
theorem encoder_invariant
    (hrun : Steps Encoder.step (fun _ op => op.Allowed) (.init alloc serialno) e) :
    e.Invariant serialno := by
  refine hrun.invariant (fun hallocated => ?_) ?_
  · unfold Encoder.init at hallocated ⊢
    rw [init_allocated hallocated]
    exact ⟨[], [], written_fresh serialno⟩
  · intro e op e' he hop hstep
    obtain ⟨e'', hstep', he'⟩ := he.step hop
    obtain rfl := Option.some.inj (hstep.symm.trans hstep')
    exact he'

/-- The pages of a run whose state was not cleared. -/
theorem exists_written
    (hrun : Steps Encoder.step (fun _ op => op.Allowed) (.init alloc serialno) e)
    (hcheck : e.state.check = 0) : ∃ made queue, Written serialno e made queue :=
  encoder_invariant hrun (check_eq_zero.mp hcheck)

/-- In every run, as long as `ogg_stream_check` reports no failure, the pages are those of the
packets: their octets, flags, granule positions and numbers, and what is not yet in a page is
queued. No call has a fault, whatever allocations fail. -/
theorem written_of_steps
    (hrun : Steps Encoder.step (fun _ op => op.Allowed) (.init alloc serialno) e) :
    (e.state.check = 0 → ∃ made queue, Written serialno e made queue) ∧
      ∀ op : EncodeOp, op.Allowed → (e.step op).isSome := by
  have he := encoder_invariant hrun
  refine ⟨fun hcheck => he (check_eq_zero.mp hcheck), fun op hop => ?_⟩
  obtain ⟨e', hstep, -⟩ := he.step hop
  rw [hstep]
  rfl

/-- Two packets, each in a page of its own. -/
def twoPackets : List EncodeOp :=
  [.packetin (fun _ => true) ⟨[1, 2, 3], true, false, 5, 0⟩, .flush,
    .packetin (fun _ => true) ⟨[9], false, true, 8, 1⟩, .flush]

/-- The two pages, and a packet for which there is no memory. -/
theorem written_of_steps_two :
    ∃ e, runActions (guarded Encoder.step fun _ op => decide op.Allowed) (.init (fun _ => true) 7)
        twoPackets = some e ∧
      e.pages.length = 2 ∧ (∃ made queue, Written 7 e made queue) ∧
      (e.step (.packetin (fun _ => false)
        ⟨List.replicate 20000 0, false, false, 9, 2⟩)).isSome = true := by
  have hrun : ((runActions (guarded Encoder.step fun _ op => decide op.Allowed)
      (.init (fun _ => true) 7) twoPackets).map fun e => (e.pages.length, e.state.check)) =
        some (2, 0) := by
    decide +kernel
  obtain ⟨e, he, hboth⟩ := Option.map_eq_some_iff.mp hrun
  obtain ⟨hpages, hcheck⟩ := Prod.mk.inj hboth
  obtain ⟨hwritten, hsome⟩ := written_of_steps
    (steps_of_runActions (fun _ _ h => of_decide_eq_true h) he)
  refine ⟨e, he, hpages, hwritten hcheck, hsome _ ?_⟩
  show (List.replicate 20000 (0 : UInt8)).length ≤ intMax
  rw [List.length_replicate]
  decide

end TSubSpec.Ogg
