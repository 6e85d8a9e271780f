import TSubSpec.Lib.Machine
import TSubSpec.Ogg.Queue

/-!
# `TSubSpec.Ogg.Decoding`: no page makes a stream state leave its buffers

A stream state that takes pages and gives packets keeps its buffers consistent: a queue of segments
whose complete groups are packets, or marks of gaps (`Regular`), in cells that are allocated. So no
call has a fault, whatever pages come and whatever allocations fail, if the body of each page is as
long as its segment table says, and the entries can be counted with an `int`
(`isSome_decode_of_steps`).
-/

set_option autoImplicit false

namespace TSubSpec.Ogg

open TSubSpec.Lib Lacing Segment OggStreamState

variable {os : OggStreamState} {queue : List Segment} {info : PageInfo}

/-! ### Regular queues -/

/-- The complete groups are packets or marks of gaps, and a packet may be in progress. So a packet
that is returned has no hole, and its granule position has been stored. -/
structure Regular (queue : List Segment) : Prop where
  groups : ∀ g ∈ groups ends queue, IsMessage g
  rest : ∀ s ∈ rest ends queue, Stored s

/-- Segments that a page stores keep the queue regular. -/
theorem Regular.append {more : List Segment} (h : Regular queue) (hmore : ∀ s ∈ more, Stored s) :
    Regular (queue ++ more) := by
  have hall : ∀ s ∈ Lacing.rest ends queue ++ more, Stored s := by
    intro s hs
    rcases List.mem_append.mp hs with hs | hs
    · exact h.rest s hs
    · exact hmore s hs
  constructor
  · intro g hg
    rw [groups_append] at hg
    rcases List.mem_append.mp hg with hg | hg
    · exact h.groups g hg
    · exact .inr fun s hs => hall s (mem_of_mem_groups hg hs)
  · intro s hs
    rw [rest_append] at hs
    exact hall s (mem_of_mem_rest hs)

/-- Behind missing pages the queue is regular: the unfinished rest is gone, and the mark is a
group. -/
theorem Regular.resumed (h : Regular queue) : Regular (os.resumed queue) := by
  obtain ⟨hgroups, hrest⟩ := groups_resumed os queue
  constructor
  · intro g hg
    rw [hgroups] at hg
    rcases List.mem_append.mp hg with hg | hg
    · exact h.groups g hg
    · split at hg
      · exact absurd hg List.not_mem_nil
      · rw [List.mem_singleton.mp hg]
        exact .inl ⟨missing, rfl, rfl, rfl⟩
  · intro s hs
    rw [hrest] at hs
    exact absurd hs List.not_mem_nil

/-- The mark of the end of the stream. -/
theorem markLast_concat (eos : Bool) (init : List Segment) (s : Segment) :
    markLast eos (init ++ [s]) = init ++ [{ s with eos := eos || s.eos }] := by
  cases eos with
  | false => rfl
  | true =>
    show (init ++ [s]).modify ((init ++ [s]).length - 1) _ = _
    rw [List.length_append, List.length_singleton, Nat.add_sub_cancel, modify_concat]
    rfl

/-- The mark of the stream's end does not change what is a mark of missing pages. -/
theorem Regular.markLast (h : Regular queue) (eos : Bool) : Regular (markLast eos queue) := by
  rcases List.eq_nil_or_concat queue with rfl | ⟨init, s, rfl⟩
  · cases eos <;> exact h
  · -- Only the last segment changes, and it ends a packet exactly if it did before.
    rw [List.concat_eq_append] at h ⊢
    rw [markLast_concat]
    obtain ⟨hgroups, hrest⟩ := @split_concat _ ends init s
    obtain ⟨hgroups', hrest'⟩ := @split_concat _ ends init { s with eos := eos || s.eos }
    have hstored : Stored s → Stored { s with eos := eos || s.eos } := id
    have hchanged : ∀ {t}, (∀ u ∈ Lacing.rest ends init ++ [s], Stored u) →
        t ∈ Lacing.rest ends init ++ [{ s with eos := eos || s.eos }] → Stored t := by
      intro t hall ht
      rcases List.mem_append.mp ht with ht | ht
      · exact hall t (List.mem_append_left _ ht)
      · rw [List.mem_singleton.mp ht]
        exact hstored (hall s (List.mem_append_right _ List.mem_cons_self))
    -- It is in the last group if it ends a packet, and in what is left otherwise.
    by_cases hends : s.ends = true
    · have hends' : ({ s with eos := eos || s.eos } : Segment).ends = true := hends
      rw [if_pos hends] at hgroups hrest
      rw [if_pos hends'] at hgroups' hrest'
      constructor
      · intro g hg
        rw [hgroups'] at hg
        rcases List.mem_append.mp hg with hg | hg
        · exact h.groups g (by rw [hgroups]; exact List.mem_append_left _ hg)
        · rw [List.mem_singleton.mp hg]
          obtain ⟨t, ht, hgap, hbytes⟩ | hall := h.groups (Lacing.rest ends init ++ [s])
            (by rw [hgroups]; exact List.mem_append_right _ List.mem_cons_self)
          · obtain ⟨hnil, hst⟩ := List.append_inj' (ht.trans (List.nil_append [t]).symm) rfl
            obtain ⟨rfl, -⟩ := List.cons.inj hst
            rw [hnil]
            exact .inl ⟨_, rfl, hgap, hbytes⟩
          · exact .inr fun t ht => hchanged hall ht
      · intro t ht
        rw [hrest'] at ht
        exact absurd ht List.not_mem_nil
    · have hends' : ¬({ s with eos := eos || s.eos } : Segment).ends = true := hends
      rw [if_neg hends, List.append_nil] at hgroups
      rw [if_neg hends] at hrest
      rw [if_neg hends', List.append_nil] at hgroups'
      rw [if_neg hends'] at hrest'
      constructor
      · rw [hgroups', ← hgroups]
        exact h.groups
      · intro t ht
        rw [hrest'] at ht
        refine hchanged (fun u hu => h.rest u ?_) ht
        rw [hrest]
        exact hu

/-- The segments of a page are no marks of missing pages. -/
theorem stored_decorate {bos eos : Bool} {granulepos : BitVec 64} {pieces : List Bytes} :
    ∀ s ∈ decorate bos eos granulepos pieces, Stored s := by
  induction pieces generalizing bos with
  | nil => exact fun s hs => absurd hs List.not_mem_nil
  | cons b bs ih =>
    intro s hs
    rcases List.mem_cons.mp hs with rfl | hs
    · exact ⟨rfl, rfl⟩
    · exact ih s hs

/-- Accepting a page keeps the queue regular. -/
theorem Regular.accepted (h : Regular queue) (info : PageInfo) :
    Regular (os.accepted info queue) := by
  refine Regular.markLast (Regular.append ?_ stored_decorate) _
  unfold before
  split
  · exact h
  · exact h.resumed

/-! ### Runs -/

/-- A call on a stream state that is used for decoding. A page has its own outcome of
allocations. -/
inductive DecodeOp
  | pagein (alloc : Nat → Bool) (og : OggPage)
  | packetout (op : Bool)
  | packetpeek (op : Bool)
  | reset
  | resetSerialno (serialno : BitVec 32)

/-- A stream state and what `ogg_stream_packetout` and `ogg_stream_packetpeek` took from it:
packets, and the reports of gaps. -/
structure Decoder where
  state : OggStreamState
  log : List (Option OggPacket)

/-- What a call to get a packet took: nothing if there was none, or if it only looked at it. -/
def tookOut (adv : Bool) : Int × Option OggPacket → List (Option OggPacket)
  | (ret, op) => if ret = 0 ∨ ret = 1 ∧ adv = false then [] else [op]

/-- One call. A reset begins a new log, since the packets behind it are counted from zero again. -/
def Decoder.step (d : Decoder) : DecodeOp → Option Decoder
  | .pagein alloc og => (d.state.pagein alloc og).map fun r => { d with state := r.2 }
  | .packetout op => (d.state.packetout op).map fun r =>
    ⟨r.2.2, d.log ++ tookOut true (r.1, r.2.1)⟩
  | .packetpeek op => (d.state.packetpeek op).map fun r =>
    ⟨r.2.2, d.log ++ tookOut false (r.1, r.2.1)⟩
  | .reset => some ⟨d.state.reset.2, []⟩
  | .resetSerialno serialno => some ⟨(d.state.resetSerialno serialno).2, []⟩

/-- The caller gives pages whose bodies are as long as their segment tables say, and while the
entries of the page and the mark of a gap can be counted with an `int`. -/
def DecodeOp.Allowed (d : Decoder) : DecodeOp → Prop
  | pagein _ og => og.Consistent ∧ d.state.lacingVals.length + 256 ≤ intMax
  | _ => True

instance DecodeOp.decidableAllowed (d : Decoder) : (op : DecodeOp) → Decidable (op.Allowed d)
  | .pagein _ og =>
    inferInstanceAs (Decidable (og.Consistent ∧ d.state.lacingVals.length + 256 ≤ intMax))
  | .packetout _ | .packetpeek _ | .reset | .resetSerialno _ => .isTrue trivial

/-- A state that was not cleared holds a regular queue. This is what every call needs to have no
fault. -/
def Decoder.Invariant (d : Decoder) : Prop :=
  d.state.allocated = true → ∃ queue, Queued d.state queue ∧ Regular queue

/-- An empty queue is regular. -/
theorem regular_nil : Regular [] :=
  ⟨fun _ hg => absurd hg List.not_mem_nil, fun _ hs => absurd hs List.not_mem_nil⟩

/-- What is left behind a packet that was taken. -/
theorem Regular.tail {g : List Segment} {gs : List (List Segment)} (h : Regular queue)
    (hgroups : Lacing.groups ends queue = g :: gs) :
    Regular (gs.flatten ++ Lacing.rest ends queue) := by
  obtain ⟨hgs, hrest⟩ := groups_tail hgroups
  constructor
  · intro g' hg'
    rw [hgs] at hg'
    exact h.groups g' (hgroups ▸ List.mem_cons_of_mem _ hg')
  · rw [hrest]
    exact h.rest

/-- A call to get a packet has no fault, and leaves a regular queue. -/
theorem packetoutI_regular (hqueued : Queued os queue) (hregular : Regular queue) (op adv : Bool) :
    ∃ ret packet os' queue', os.packetoutI op adv = some (ret, packet, os') ∧
      Queued os' queue' ∧ Regular queue' := by
  have hcall := packetoutI_eq hqueued hregular.groups op adv
  cases hgroups : groups ends queue with
  | nil =>
    rw [hgroups] at hcall
    exact ⟨_, _, os, queue, hcall, hqueued, hregular⟩
  | cons g gs =>
    rw [hgroups] at hcall
    have htaken := queued_taken hqueued hgroups
    have htail := hregular.tail hgroups
    cases hpacket : packetOf os.packetno g with
    | none =>
      simp only [hpacket] at hcall
      exact ⟨_, _, _, _, hcall, htaken, htail⟩
    | some packet =>
      simp only [hpacket] at hcall
      cases adv with
      | true => exact ⟨_, _, _, _, hcall, htaken, htail⟩
      | false => exact ⟨_, _, _, _, hcall, hqueued, hregular⟩

/-- A call to get a packet from a state that was cleared has no answer. -/
theorem packetout_refused (h : os.allocated = false) (op : Bool) :
    os.packetout op = some (0, none, os) ∧ os.packetpeek op = some (0, none, os) :=
  ⟨if_pos h, if_pos h⟩

/-- On an allocated state the two calls are `ogg_stream_packetout_i` with and without taking the
packet. -/
theorem packetout_allowed (h : os.allocated = true) (op : Bool) :
    os.packetout op = os.packetoutI op true ∧ os.packetpeek op = os.packetoutI op false := by
  have hne : ¬os.allocated = false := by
    rw [h]
    exact Bool.noConfusion
  exact ⟨if_neg hne, if_neg hne⟩

/-- No call on a state that was cleared has a fault, and it stays as it is. -/
theorem Decoder.step_refused {d : Decoder} (h : d.state.allocated = false) {op : DecodeOp}
    (hop : op.Allowed d) : ∃ log, d.step op = some ⟨d.state, log⟩ := by
  have hne : ¬d.state.allocated = true := by
    rw [h]
    exact Bool.noConfusion
  unfold Decoder.step
  cases op with
  | pagein alloc og =>
    obtain ⟨info, hshows⟩ := OggPage.Consistent.shows hop.1
    simp only [pagein_refused alloc h hshows]
    exact ⟨d.log, rfl⟩
  | packetout op =>
    simp only [(packetout_refused h op).1]
    exact ⟨_, rfl⟩
  | packetpeek op =>
    simp only [(packetout_refused h op).2]
    exact ⟨_, rfl⟩
  | reset =>
    unfold OggStreamState.reset
    simp only [if_neg hne]
    exact ⟨_, rfl⟩
  | resetSerialno serialno =>
    unfold OggStreamState.resetSerialno
    simp only [if_neg hne]
    exact ⟨_, rfl⟩

/-- Every call keeps the queue regular. -/
theorem Decoder.Invariant.step {d : Decoder} (h : d.Invariant) {op : DecodeOp}
    (hop : op.Allowed d) : ∃ d', d.step op = some d' ∧ d'.Invariant := by
  cases hallocated : d.state.allocated with
  | false =>
    -- A stream that was cleared refuses every call, and stays as it is.
    obtain ⟨log, hstep⟩ := d.step_refused hallocated hop
    refine ⟨_, hstep, fun htrue => ?_⟩
    exact absurd (hallocated.symm.trans htrue) Bool.noConfusion
  | true =>
    obtain ⟨queue, hqueued, hregular⟩ := h hallocated
    cases op with
    | pagein alloc og =>
      obtain ⟨info, hshows⟩ := OggPage.Consistent.shows hop.1
      obtain ⟨r, hcall, hr⟩ := pagein_spec alloc hqueued hshows hop.2
      refine ⟨{ d with state := r.2 }, ?_, fun htrue => ?_⟩
      · show (d.state.pagein alloc og).map _ = _
        rw [hcall]
        rfl
      · cases hr with
        | foreign hother => exact ⟨queue, queued_clean hqueued, hregular⟩
        -- An allocation failed and the stream is cleared, so nothing is left to show.
        | failed => cases htrue
        | stored bodyStorage lacingStorage hserialno hversion hstored =>
          exact ⟨_, hstored, hregular.accepted info⟩
    | packetout op =>
      obtain ⟨ret, packet, os', queue', hcall, hqueue', hregular'⟩ :=
        packetoutI_regular hqueued hregular op true
      refine ⟨⟨os', d.log ++ tookOut true (ret, packet)⟩, ?_, fun _ => ⟨queue', hqueue', hregular'⟩⟩
      show (d.state.packetout op).map _ = _
      rw [(packetout_allowed hallocated op).1, hcall]
      rfl
    | packetpeek op =>
      obtain ⟨ret, packet, os', queue', hcall, hqueue', hregular'⟩ :=
        packetoutI_regular hqueued hregular op false
      refine ⟨⟨os', d.log ++ tookOut false (ret, packet)⟩, ?_, fun _ => ⟨queue', hqueue', hregular'⟩⟩
      show (d.state.packetpeek op).map _ = _
      rw [(packetout_allowed hallocated op).2, hcall]
      rfl
    | reset => exact ⟨_, rfl, fun _ => ⟨[], (queued_reset hallocated).1, regular_nil⟩⟩
    | resetSerialno serialno =>
      exact ⟨_, rfl, fun _ => ⟨[], (queued_resetSerialno hallocated serialno).1, regular_nil⟩⟩

/-- In every run, of any pages whose bodies are as long as their segment tables say, and with any
failures of allocations, no call has a fault. A fault is a read or a write outside of an allocated
buffer, so the buffers that the state grows are large enough for what it stores. -/
theorem isSome_decode_of_steps {alloc : Nat → Bool} {serialno : BitVec 32} {d : Decoder}
    (hrun : Steps Decoder.step (fun d op => op.Allowed d) ⟨(init alloc serialno).2, []⟩ d)
    {op : DecodeOp} (hop : op.Allowed d) : (d.step op).isSome := by
  have hd : d.Invariant := by
    refine hrun.invariant (fun hallocated => ?_) ?_
    · rw [init_allocated hallocated]
      exact ⟨[], queued_fresh serialno, regular_nil⟩
    · intro d op d' hd hop hstep
      obtain ⟨d'', hstep', hd'⟩ := hd.step hop
      obtain rfl := Option.some.inj (hstep.symm.trans hstep')
      exact hd'
  obtain ⟨d', hstep, -⟩ := hd.step hop
  rw [hstep]
  rfl

/-- A page with one packet of three octets, without its checksum. -/
def threeOctets : OggPage where
  header := ascii "OggS" ++ [0, 2] ++ List.replicate 8 0 ++ [7, 0, 0, 0] ++
    List.replicate 8 0 ++ [1, 3]
  body := [1, 2, 3]

/-- A page, and the same page when there is no more room and no more memory. -/
theorem isSome_decode_of_steps_page :
    ∃ d, runActions (guarded Decoder.step fun d op => decide (op.Allowed d))
        ⟨(init (fun _ => true) 7).2, []⟩
        [.pagein (fun _ => true) threeOctets, .packetout true] = some d ∧
      d.log.map (Option.map OggPacket.packet) = [some [1, 2, 3]] ∧
      (d.step (.pagein (fun _ => false) threeOctets)).isSome = true := by
  have hrun : ((runActions (guarded Decoder.step fun d op => decide (op.Allowed d))
      ⟨(init (fun _ => true) 7).2, []⟩
      [.pagein (fun _ => true) threeOctets, .packetout true]).map fun d =>
        (d.log.map (Option.map OggPacket.packet),
          decide ((DecodeOp.pagein (fun _ => false) threeOctets).Allowed d))) =
            some ([some [1, 2, 3]], true) := by
    decide +kernel
  obtain ⟨d, hd, hboth⟩ := Option.map_eq_some_iff.mp hrun
  obtain ⟨hlog, hop⟩ := Prod.mk.inj hboth
  exact ⟨d, hd, hlog, isSome_decode_of_steps
    (steps_of_runActions (fun _ _ h => of_decide_eq_true h) hd) (of_decide_eq_true hop)⟩

end TSubSpec.Ogg
