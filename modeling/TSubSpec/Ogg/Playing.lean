import TSubSpec.Ogg.Receiving
import TSubSpec.Ogg.Syncing

/-!
# `TSubSpec.Ogg.Playing`: from bytes to packets

A player gives bytes to a sync state, the pages that it finds to a stream state, and asks that for
packets. `heard_of_steps` is that no bytes make a call fail, and that in every run the packets and
the gaps are those that a receiver reports for the pages in the bytes, however the bytes are cut and
whenever the player asks. The allocations of the stream state may fail: from then on
`ogg_stream_check` says so, and nothing comes out.
-/

set_option autoImplicit false

namespace TSubSpec.Ogg

open TSubSpec.Lib Lacing Segment

/-! ### The pages of a scan -/

/-- A page that is found has the size that its header says. -/
theorem consistent_of_headOf {bytes : Bytes} {og : OggPage} (h : headOf bytes = .page og) :
    og.Consistent := by
  obtain ⟨-, -, n, hn, hsize, rfl, -⟩ := headOf_page h
  have hheader : (bytes.take (n.toNat + 27)).length = n.toNat + 27 := by
    rw [List.length_take]
    omega
  refine ⟨n, ?_, ?_, ?_⟩
  · show (bytes.take (n.toNat + 27))[26]? = _
    rw [List.getElem?_take_of_lt (by omega), hn]
  · show _ ≤ (bytes.take (n.toNat + 27)).length
    omega
  · have htable : ((bytes.take (n.toNat + 27)).drop 27).take n.toNat =
        (bytes.drop 27).take n.toNat := by
      rw [List.drop_take, Nat.add_sub_cancel, List.take_take, Nat.min_self]
    show ((bytes.drop (n.toNat + 27)).take _).length =
      ((((bytes.take _).drop 27).take n.toNat).map _).sum
    rw [htable, List.length_take, List.length_drop]
    unfold bodySize at hsize ⊢
    omega

/-- So have all pages of a scan. -/
theorem consistent_of_scan {og : OggPage} (bytes : Bytes) (hog : og ∈ scan bytes) :
    og.Consistent := by
  induction hn : bytes.length using Nat.strong_induction_on generalizing bytes with
  | _ n ih =>
    cases h : headOf bytes with
    | incomplete =>
      rw [scan_incomplete h] at hog
      exact absurd hog List.not_mem_nil
    | bad =>
      have hlength := length_of_headOf_bad h
      rw [scan_bad h] at hog
      exact ih _ (by rw [List.length_drop]; omega) _ hog rfl
    | page og' =>
      obtain ⟨hle, hpos, -⟩ := bytes_of_headOf h
      rw [scan_page h] at hog
      rcases List.mem_cons.mp hog with rfl | hog
      · exact consistent_of_headOf h
      · exact ih _ (by rw [List.length_drop]; omega) _ hog rfl

/-! ### The player -/

/-- Bytes for the sync state, whose pages go to the stream state at once, or a call to get a packet.
`alloc` says which allocations of the stream state succeed. -/
inductive PlayOp
  | sync (alloc : Nat → Bool) (op : SyncOp)
  | packetout
  | packetpeek (op : Bool)

/-- A sync state and a stream state, each with what is known of its run. This is how the pages of a
file get to the packets of a stream. -/
structure Player where
  syncer : Syncer
  listener : Listener

namespace Player

/-- `alloc` says which allocations of `ogg_stream_init` succeed. -/
def init (alloc : Nat → Bool) (serialno : BitVec 32) : Player := ⟨.init, .init alloc serialno⟩

/-- One call, and the calls of `ogg_stream_pagein` for the pages that it found. A caller hands over
every page that it gets. -/
def step (p : Player) : PlayOp → Option Player
  | .sync alloc op => (p.syncer.step op).bind fun s =>
    (runActions Listener.step p.listener
      ((s.pages.drop p.syncer.pages.length).map (.pagein alloc))).map fun l => ⟨s, l⟩
  | .packetout => (p.listener.step (.packetout true)).map fun l => { p with listener := l }
  | .packetpeek op => (p.listener.step (.packetpeek op)).map fun l => { p with listener := l }

end Player

/-- The call does not empty the buffer: it is no reset, and no allocation of the sync state
fails. -/
def SyncOp.Keeps (oy : OggSyncState) : SyncOp → Prop
  | buffer alloc size => (oy.buffer alloc size).map Prod.fst = some true
  | reset => False
  | _ => True

instance SyncOp.decidableKeeps (oy : OggSyncState) : (op : SyncOp) → Decidable (op.Keeps oy)
  | .buffer alloc size => inferInstanceAs (Decidable ((oy.buffer alloc size).map Prod.fst = some true))
  | .reset => .isFalse id
  | .wrote _ | .pageseek | .pageout => .isTrue trivial

/-- The storage of the sync state is a number of an `int`, its buffer is not emptied, and the
entries of the stream state can be counted with an `int`. -/
def PlayOp.Allowed (p : Player) : PlayOp → Prop
  | sync _ op => op.Allowed p.syncer.state ∧ op.Keeps p.syncer.state ∧
    p.listener.decoder.state.lacingVals.length + 256 ≤ intMax
  | _ => True

instance PlayOp.decidableAllowed (p : Player) : (op : PlayOp) → Decidable (op.Allowed p)
  | .sync _ op => inferInstanceAs (Decidable (op.Allowed p.syncer.state ∧ op.Keeps p.syncer.state ∧
    p.listener.decoder.state.lacingVals.length + 256 ≤ intMax))
  | .packetout | .packetpeek _ => .isTrue trivial

namespace Player

/-- The stream state got the pages that the sync state gave, and both follow their records. -/
structure Invariant (serialno : BitVec 32) (p : Player) : Prop where
  syncer : p.syncer.Invariant
  listener : p.listener.Invariant
  arrived : p.listener.arrived = p.syncer.pages
  first : p.listener.first = some 0
  serialno : p.listener.decoder.state.allocated = true →
    p.listener.decoder.state.serialno = serialno

variable {p : Player} {alloc : Nat → Bool} {serialno : BitVec 32}

/-- A call on the sync state gives one page or none. -/
theorem step_sync_pages {s s' : Syncer} {op : SyncOp} (hkeeps : op.Keeps s.state)
    (h : s.step op = some s') : ∃ og : Option OggPage, s'.pages = s.pages ++ og.toList := by
  cases op with
  | buffer alloc size =>
    obtain ⟨r, hcall, rfl⟩ := Option.map_eq_some_iff.mp h
    have hkept : r.1 = true := by
      have hpointer : (s.state.buffer alloc size).map Prod.fst = some true := hkeeps
      rw [hcall] at hpointer
      exact Option.some.inj hpointer
    refine ⟨none, ?_⟩
    rw [if_pos hkept]
    exact (List.append_nil _).symm
  | wrote bytes =>
    cases h
    exact ⟨none, (List.append_nil _).symm⟩
  | pageseek =>
    obtain ⟨r, -, rfl⟩ := Option.map_eq_some_iff.mp h
    exact ⟨r.2.1, rfl⟩
  | pageout =>
    obtain ⟨r, -, rfl⟩ := Option.map_eq_some_iff.mp h
    exact ⟨r.2.1, rfl⟩
  | reset => exact hkeeps.elim

/-- The page that arrives, if there is one, can be taken. -/
theorem runActions_pagein {l : Listener} (h : l.Invariant) (alloc : Nat → Bool)
    {og : Option OggPage} (hog : ∀ page ∈ og.toList, page.Consistent)
    (hint : l.decoder.state.lacingVals.length + 256 ≤ intMax) :
    ∃ l', runActions Listener.step l (og.toList.map (.pagein alloc)) = some l' ∧ l'.Invariant ∧
      l'.arrived = l.arrived ++ og.toList ∧ l'.first = l.first ∧
      Listener.SameStream l.decoder.state l'.decoder.state := by
  cases og with
  | none => exact ⟨l, rfl, h, (List.append_nil _).symm, rfl, fun hl => ⟨hl, rfl⟩⟩
  | some og =>
    obtain ⟨os, hcall, hsame, hl⟩ := h.pagein alloc (hog og List.mem_cons_self) hint
    refine ⟨l.arriving og os, ?_, hl, rfl, rfl, hsame⟩
    show runActions Listener.step l [.pagein alloc og] = _
    rw [runActions_cons hcall]
    rfl

/-- The pages that were found and those that will be found in what is unread are those of the
bytes. -/
theorem Invariant.pages_eq (h : p.Invariant serialno) :
    p.syncer.pages ++ scan p.syncer.state.unread = scan p.syncer.fed := by
  have hscan := h.syncer.scan []
  rwa [List.append_nil, List.append_nil] at hscan

/-- The number of the stream stays, if the stream state was not cleared. -/
theorem Invariant.same (h : p.Invariant serialno) {os : OggStreamState}
    (hsame : Listener.SameStream p.listener.decoder.state os) (hallocated : os.allocated = true) :
    os.serialno = serialno := by
  obtain ⟨hbefore, hserialno⟩ := hsame hallocated
  exact hserialno.trans (h.serialno hbefore)

/-- No call fails, whatever the bytes are. -/
theorem Invariant.step (h : p.Invariant serialno) {op : PlayOp} (hop : op.Allowed p) :
    ∃ p', p.step op = some p' ∧ p'.Invariant serialno := by
  cases op with
  | sync alloc op =>
    obtain ⟨hallowed, hkeeps, hint⟩ := hop
    obtain ⟨s, hstep, hs⟩ := h.syncer.step hallowed
    obtain ⟨og, hpages⟩ := step_sync_pages hkeeps hstep
    -- A page that the scan finds has the table that belongs to its body.
    have hconsistent : ∀ page ∈ og.toList, page.Consistent := by
      intro page hpage
      refine consistent_of_scan (s.fed ++ []) ?_
      rw [← hs.scan [], hpages]
      exact List.mem_append_left _ (List.mem_append_right _ hpage)
    obtain ⟨l, hrun, hl, harrived, hfirst, hsame⟩ :=
      runActions_pagein h.listener alloc hconsistent hint
    refine ⟨⟨s, l⟩, ?_, hs, hl, ?_, hfirst.trans h.first, h.same hsame⟩
    · show (p.syncer.step op).bind _ = _
      rw [hstep, Option.bind_some, hpages, List.drop_left, hrun]
      rfl
    · rw [harrived, h.arrived]
      exact hpages.symm
  | packetout =>
    obtain ⟨d, hcall, hsame, hl⟩ := h.listener.packetout
    refine ⟨⟨p.syncer, { p.listener with decoder := d }⟩, ?_, h.syncer, hl, h.arrived, h.first,
      h.same hsame⟩
    show (p.listener.step (.packetout true)).map _ = _
    rw [hcall]
    rfl
  | packetpeek op =>
    obtain ⟨d, hcall, hsame, hl⟩ := h.listener.packetpeek op
    refine ⟨⟨p.syncer, { p.listener with decoder := d }⟩, ?_, h.syncer, hl, h.arrived, h.first,
      h.same hsame⟩
    show (p.listener.step (.packetpeek op)).map _ = _
    rw [hcall]
    rfl

/-- The invariant holds behind every run, whatever the allocations of the stream state do. -/
theorem invariant_of_steps
    (hrun : Steps step (fun p op => op.Allowed p) (init alloc serialno) p) :
    p.Invariant serialno := by
  have hlistener : (Listener.init alloc serialno).Invariant := Listener.invariant_of_steps .refl
  refine hrun.invariant ⟨⟨OggSyncState.synced_init, fun _ => rfl⟩, hlistener, rfl, rfl,
    fun hos => ?_⟩ ?_
  · exact congrArg OggStreamState.serialno (OggStreamState.init_allocated hos)
  · intro p op p' hp hop hstep
    obtain ⟨p'', hstep', hp'⟩ := hp.step hop
    obtain rfl := Option.some.inj (hstep.symm.trans hstep')
    exact hp'

/-- What a receiver reports for the pages of a stream in some bytes: their packets and the gaps
between. -/
def reportsOf (serialno : BitVec 32) (bytes : Bytes) : List (Option OggPacket) :=
  ((Paging.Receiver.mk (some 0) []).reports ends
    (((scan bytes).filter (·.addressed serialno)).map OggPage.toPage)).map (Option.bind · heard)

/-- The log is that of the player's bytes: all that a receiver reports for the pages in them, when
there are no more bytes to search and no packets to get, and else a part of it. -/
def Heard (serialno : BitVec 32) (p : Player) : Prop :=
  p.listener.decoder.log.map (Option.map OggPacket.plain) <+: reportsOf serialno p.syncer.fed ∧
    ∀ oy os, p.syncer.state.pageout = some (0, none, oy) →
      p.listener.decoder.state.packetout true = some (0, none, os) →
        p.listener.decoder.log.map (Option.map OggPacket.plain) = reportsOf serialno p.syncer.fed

/-- No bytes make a call fail, whatever allocations of the stream state fail. As long as
`ogg_stream_check` reports no failure, the packets and the gaps are those that a receiver reports
for the pages in the bytes. -/
theorem heard_of_steps
    (hrun : Steps step (fun p op => op.Allowed p) (init alloc serialno) p) :
    (∀ op : PlayOp, op.Allowed p → (p.step op).isSome) ∧
      (p.listener.decoder.state.check = 0 → p.Heard serialno) := by
  have h := invariant_of_steps hrun
  refine ⟨fun op hop => ?_, fun hcheck => ?_⟩
  · obtain ⟨p', hstep, -⟩ := h.step hop
    rw [hstep]
    rfl
  · have hallocated := OggStreamState.check_eq_zero.mp hcheck
    obtain ⟨queue, htracks⟩ := h.listener hallocated
    have hreports : p.listener.reports = (Paging.Receiver.mk (some 0) []).reports ends
        ((p.syncer.pages.filter (·.addressed serialno)).map OggPage.toPage) := by
      unfold Listener.reports Listener.pages
      rw [h.first, h.arrived, h.serialno hallocated]
    refine ⟨?_, fun oy os hpage hpacket => ?_⟩
    · refine List.IsPrefix.trans ⟨_, htracks.log⟩ ?_
      unfold reportsOf
      rw [hreports, ← h.pages_eq, List.filter_append, List.map_append,
        Paging.Receiver.reports_append, List.map_append]
      exact List.prefix_append _ _
    · rw [htracks.complete hpacket, hreports, h.syncer.complete hpage]
      rfl

/-- A page of the stream with number 7, with one packet of one octet. -/
def numbered (k : UInt8) : OggPage where
  header := ascii "OggS" ++ List.replicate 10 0 ++ [7, 0, 0, 0, k, 0, 0, 0] ++
    List.replicate 4 0 ++ [1, 1]
  body := [k]

/-- The first page and the third one, with their checksums. The second one is lost. -/
def firstAndThird : Bytes :=
  ([numbered 0, numbered 2].filterMap OggPage.checksumSet).flatMap OggPage.bytes

/-- They arrive in two chunks, behind an octet that is none of them. -/
def playFirstAndThird : List PlayOp :=
  [.sync (fun _ => true) (.buffer (fun _ => true) 64),
    .sync (fun _ => true) (.wrote (0 :: firstAndThird.take 20)), .sync (fun _ => true) .pageout,
    .packetout, .sync (fun _ => true) (.wrote (firstAndThird.drop 20)),
    .sync (fun _ => true) .pageout, .sync (fun _ => true) .pageout, .packetout,
    .sync (fun _ => true) .pageout, .packetout, .packetout, .packetout]

/-- Of three pages the second never arrives. Two packets are reported, and the gap between them. -/
theorem heard_of_steps_gap :
    ∃ p, runActions (guarded step fun p op => decide (op.Allowed p)) (init (fun _ => true) 7)
        playFirstAndThird = some p ∧
      p.listener.decoder.log.map (Option.map OggPacket.packet) = [some [0], none, some [2]] ∧
      (∀ op : PlayOp, op.Allowed p → (p.step op).isSome) ∧ p.Heard 7 := by
  have hrun : ((runActions (guarded step fun p op => decide (op.Allowed p))
      (init (fun _ => true) 7) playFirstAndThird).map fun p =>
        (p.listener.decoder.log.map (Option.map OggPacket.packet),
          p.listener.decoder.state.check)) = some ([some [0], none, some [2]], 0) := by
    decide +kernel
  obtain ⟨p, hp, hboth⟩ := Option.map_eq_some_iff.mp hrun
  obtain ⟨hlog, hcheck⟩ := Prod.mk.inj hboth
  obtain ⟨hsome, hheard⟩ := heard_of_steps
    (steps_of_runActions (fun _ _ h => of_decide_eq_true h) hp)
  exact ⟨p, hp, hlog, hsome, hheard hcheck⟩

end Player

end TSubSpec.Ogg
