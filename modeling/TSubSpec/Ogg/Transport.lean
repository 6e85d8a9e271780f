import Mathlib.Data.List.Forall2
import TSubSpec.Ogg.PageStream
import TSubSpec.Ogg.Playing

/-!
# `TSubSpec.Ogg.Transport`: packets that are sent and packets that come out

The pages of a stream state that encodes go to one that decodes. `sent_of_steps` is that only
packets that were sent come out, whatever pages arrive, in whatever order and how often. If pages
are lost these are the packets all of whose pages arrive (`survived_of_steps`). If the octets of all
pages arrive, in chunks of any sizes, all packets come out and no gap is reported
(`delivered_of_steps`).

The numbers of pages have 32 bits, so the stream has at most `2 ^ 32` pages. Both states are such
that `ogg_stream_check` reports no failure: an allocation that failed would have lost packets.
-/

set_option autoImplicit false

namespace TSubSpec.Ogg

open TSubSpec.Lib Lacing Segment OggStreamState

/-- Packet `k` of a stream comes out: its octets, whether it is the first one, and its granule
position, which is known only for the last packet that ends in a page, and is zero on the first
page. -/
def IsPacket (packets : List (Bytes × BitVec 64)) (k : Nat) (op : OggPacket) : Prop :=
  ∃ p, packets[k]? = some p ∧ op.packet = p.1 ∧ op.bOS = decide (k = 0) ∧
    (op.granulepos = p.2 ∨ op.granulepos = -1 ∨ k = 0 ∧ op.granulepos = 0)

/-! ### Segments on the pages -/

/-- The segments of the page, each beside the one that the encoder stored. The two differ in the
granule positions, of which a page has only one. -/
def Made.pairs (m : Made) : List (Segment × Segment) := m.page.toPage.segments.zip m.segments

/-- A page has as many segments as pieces. -/
theorem length_decorate {bos eos : Bool} {granulepos : BitVec 64} (pieces : List Bytes) :
    (decorate bos eos granulepos pieces).length = pieces.length := by
  rw [← List.length_map Segment.bytes, map_bytes_decorate]

/-- A segment of a page: what is read of it. -/
theorem decorate_split {bos : Bool} {granulepos : BitVec 64} {segments : List Segment}
    {C D : List (Segment × Segment)} {d s : Segment}
    (h : (decorate bos false granulepos (segments.map Segment.bytes)).zip segments =
      C ++ (d, s) :: D) :
    segments = C.map Prod.snd ++ s :: D.map Prod.snd ∧ d.bytes = s.bytes ∧ d.gap = false ∧
      d.bos = (bos && C.isEmpty) ∧
      d.granule = some (if s.ends = true ∧ ∀ t ∈ D.map Prod.snd, t.ends = false then granulepos
        else -1) := by
  induction segments generalizing bos C with
  | nil =>
    have hnil : [] = C ++ (d, s) :: D := h
    exact absurd hnil.symm (List.append_ne_nil_of_right_ne_nil C (List.cons_ne_nil _ D))
  | cons t segments ih =>
    rw [List.map_cons, decorate, List.zip_cons_cons] at h
    -- The segment itself, or one behind the head: the granule position looks at what follows, the
    -- first flag at what stands before.
    cases C with
    | nil =>
      obtain ⟨hhead, htail⟩ := List.cons.inj h
      obtain ⟨rfl, rfl⟩ := Prod.mk.inj hhead
      have hsegments : D.map Prod.snd = segments := by
        rw [← htail, List.map_snd_zip (Nat.le_of_eq (by rw [length_decorate, List.length_map]))]
      refine ⟨by rw [hsegments]; rfl, rfl, rfl, (Bool.and_true bos).symm, ?_⟩
      rw [hsegments]
      refine congrArg some (if_congr ?_ rfl rfl)
      rw [List.forall_mem_map]
      exact Iff.rfl
    | cons c C =>
      obtain ⟨hhead, htail⟩ := List.cons.inj h
      obtain ⟨hsegments, hbytes, hgap, hbos, hgranule⟩ := ih htail
      refine ⟨?_, hbytes, hgap, ?_, hgranule⟩
      · rw [hsegments, ← hhead]
        rfl
      · rw [hbos]
        exact (Bool.and_false bos).symm

/-- An element of a list of lists stands in one of them. -/
theorem flatMap_split {α β : Type} {f : α → List β} {xs : List α} {A B : List β} {y : β}
    (h : xs.flatMap f = A ++ y :: B) :
    ∃ before x after C D, xs = before ++ x :: after ∧ f x = C ++ y :: D ∧
      A = before.flatMap f ++ C := by
  induction xs generalizing A with
  | nil =>
    have hnil : [] = A ++ y :: B := h
    exact absurd hnil.symm (List.append_ne_nil_of_right_ne_nil A (List.cons_ne_nil y B))
  | cons x xs ih =>
    rw [List.flatMap_cons] at h
    rcases List.append_eq_append_iff.mp h with ⟨A', rfl, hxs⟩ | ⟨C, hx, hB⟩
    · obtain ⟨before, x', after, C, D, rfl, hx', rfl⟩ := ih hxs
      refine ⟨x :: before, x', after, C, D, rfl, hx', ?_⟩
      rw [List.flatMap_cons, List.append_assoc]
    · cases C with
      | nil =>
        rw [List.append_nil] at hx
        obtain ⟨before, x', after, C, D, rfl, hx', hA⟩ := ih (A := []) hB.symm
        refine ⟨x :: before, x', after, C, D, rfl, hx', ?_⟩
        rw [List.flatMap_cons, List.append_assoc, ← hA, List.append_nil, hx]
      | cons z D =>
        obtain ⟨rfl, -⟩ := List.cons.inj hB
        exact ⟨[], x, xs, A, D, rfl, hx, rfl⟩

/-- The last packet that ends in a page. -/
theorem granuleOf_split (granule : Option (BitVec 64)) {C D : List Segment} {s : Segment}
    (hs : s.ends = true) (hD : ∀ t ∈ D, t.ends = false) :
    granuleOf granule (C ++ s :: D) = s.granule := by
  induction C generalizing granule with
  | nil =>
    rw [List.nil_append, granuleOf, if_pos hs]
    have hopen : ∀ (g : Option (BitVec 64)), granuleOf g D = g := by
      induction D with
      | nil => exact fun g => rfl
      | cons t D ih =>
        intro g
        rw [granuleOf, if_neg (Bool.eq_false_iff.mp (hD t List.mem_cons_self)),
          ih fun u hu => hD u (List.mem_cons_of_mem _ hu)]
    exact hopen s.granule
  | cons c C ih => exact ih _

variable {serialno : BitVec 32} {e : Encoder} {made : List Made} {queue : List Segment}

/-- The page of a placed one as a receiver that only follows page numbers sees it. -/
theorem Made.Placed.toPage_eq {m : Made} {k : Nat} {before : List Segment}
    (h : m.Placed serialno k before) :
    m.page.toPage = ⟨k % 2 ^ 32, !(rest ends before).isEmpty,
      decorate (decide (k = 0)) false m.info.granulepos (m.segments.map Segment.bytes)⟩ := by
  rw [h.shows.toPage_eq, h.pageno, h.continued, h.bos, h.pieces]

/-- A page's segments as they were made, next to those that its header shows. -/
theorem Made.Placed.map_pairs {m : Made} {k : Nat} {before : List Segment}
    (h : m.Placed serialno k before) :
    m.pairs.map Prod.snd = m.segments ∧ m.pairs.map Prod.fst = m.page.toPage.segments := by
  have hlength : m.page.toPage.segments.length = m.segments.length := by
    rw [h.toPage_eq, length_decorate, List.length_map]
  exact ⟨List.map_snd_zip (Nat.le_of_eq hlength.symm), List.map_fst_zip (Nat.le_of_eq hlength)⟩

/-- Every page that was made is one of the stream, with its number and what came before it. -/
theorem Written.placed_of_mem (h : Written serialno e made queue) {m : Made} (hm : m ∈ made) :
    ∃ k before, m.Placed serialno k before := by
  obtain ⟨k, hk, rfl⟩ := List.mem_iff_getElem.mp hm
  exact ⟨k, _, h.placed k _ (List.getElem?_eq_getElem hk)⟩

/-- The pairs of some of the pages. -/
theorem Written.map_snd_pairs (h : Written serialno e made queue) {some : List Made}
    (hsome : ∀ m ∈ some, m ∈ made) : (some.flatMap Made.pairs).map Prod.snd = segmentsIn some := by
  rw [List.map_flatMap, segmentsIn, List.flatMap_def, List.flatMap_def]
  refine congrArg List.flatten (List.map_congr_left fun m hm => ?_)
  obtain ⟨k, before, hplaced⟩ := h.placed_of_mem (hsome m hm)
  exact hplaced.map_pairs.1

/-- What is read of a segment, and the packet that it belongs to. -/
theorem Written.pair_of_split (h : Written serialno e made queue) {A B : List (Segment × Segment)}
    {d s : Segment} (hsplit : made.flatMap Made.pairs = A ++ (d, s) :: B) :
    ∃ p granule, e.packets[(groups ends (A.map Prod.snd)).length]? = some p ∧ d.bytes = s.bytes ∧
      d.gap = false ∧ d.bos = A.isEmpty ∧ d.granule = some granule ∧
      (s.ends = true → granule = p.2 ∨ granule = -1 ∨
        (groups ends (A.map Prod.snd)).length = 0 ∧ granule = 0) := by
  obtain ⟨before, m, after, C, D, rfl, hpairs, rfl⟩ := flatMap_split hsplit
  have hplaced := h.placed before.length m (by
    rw [List.getElem?_append_right (Nat.le_refl _), Nat.sub_self]
    rfl)
  rw [List.take_left] at hplaced
  unfold Made.pairs at hpairs
  rw [hplaced.toPage_eq] at hpairs
  obtain ⟨hsegments, hbytes, hgap, hbos, hgranule⟩ := decorate_split hpairs
  have hbefore : (before.flatMap Made.pairs).map Prod.snd = segmentsIn before :=
    h.map_snd_pairs fun m hm => List.mem_append_left _ hm
  have hstream : (packetsOf 0 e.packets).flatten = (segmentsIn before ++ C.map Prod.snd) ++
      s :: (D.map Prod.snd ++ segmentsIn after ++ queue) := by
    have hmade : segmentsIn (before ++ m :: after) = segmentsIn before ++ m.segments ++
        segmentsIn after := by
      rw [segmentsIn, List.flatMap_append, List.flatMap_cons, ← List.append_assoc]
      rfl
    rw [← h.segments, hmade, hsegments]
    simp only [List.append_assoc, List.cons_append]
  obtain ⟨p, hp, -, -, -, -, hends⟩ := segment_of_split hstream
  rw [List.map_append, hbefore]
  refine ⟨p, _, hp, hbytes, hgap, ?_, hgranule, fun hs => ?_⟩
  · rw [hbos]
    cases before with
    | nil => rfl
    | cons b bs =>
      obtain ⟨k, front, hb⟩ := h.placed_of_mem (m := b) (List.mem_append_left _ List.mem_cons_self)
      have hne : b.pairs ≠ [] := by
        intro hnil
        have hsnd := hb.map_pairs.1
        rw [hnil] at hsnd
        exact hb.nonempty hsnd.symm
      cases hb' : b.pairs with
      | nil => exact absurd hb' hne
      | cons x xs =>
        rw [List.flatMap_cons, hb']
        rfl
  · by_cases hlast : ∀ t ∈ D.map Prod.snd, t.ends = false
    · rw [if_pos ⟨hs, hlast⟩]
      have hgranulepos := hplaced.granulepos
      by_cases hzero : before.length = 0
      · -- The first page has segments of the first packet only.
        rw [if_pos hzero] at hgranulepos
        refine .inr (.inr ⟨?_, Option.some.inj hgranulepos⟩)
        obtain rfl := List.length_eq_zero_iff.mp hzero
        have hfirst := hplaced.first rfl
        have hopen : ∀ t ∈ C.map Prod.snd, t.ends = false := by
          intro t ht
          refine hfirst t ?_
          rw [hsegments, List.dropLast_append_of_ne_nil (List.cons_ne_nil s _)]
          exact List.mem_append_left _ ht
        show (groups ends (C.map Prod.snd)).length = 0
        rw [groups_of_open hopen]
        rfl
      · rw [if_neg hzero, hsegments, granuleOf_split _ hs hlast, hends hs] at hgranulepos
        exact .inl (Option.some.inj hgranulepos)
    · rw [if_neg fun hboth => hlast hboth.2]
      exact .inr (.inl rfl)

/-! ### The stream of pages -/

/-- The pages of the encoder, as they are for a receiver. -/
def pagesOf (made : List Made) : List (Paging.Page Segment) := made.map fun m => m.page.toPage

/-- The segments of all pages, as their headers show them. -/
theorem Written.map_fst_pairs (h : Written serialno e made queue) :
    (made.flatMap Made.pairs).map Prod.fst = Paging.segments (pagesOf made) := by
  rw [List.map_flatMap, Paging.segments, pagesOf, List.flatMap_map, List.flatMap_def,
    List.flatMap_def]
  refine congrArg List.flatten (List.map_congr_left fun m hm => ?_)
  obtain ⟨k, before, hplaced⟩ := h.placed_of_mem hm
  exact hplaced.map_pairs.2

/-- The octets on the pages are those of the segments. -/
theorem Written.map_bytes (h : Written serialno e made queue) {some : List Made}
    (hsome : ∀ m ∈ some, m ∈ made) :
    (Paging.segments (pagesOf some)).map Segment.bytes = (segmentsIn some).map Segment.bytes := by
  rw [Paging.segments, pagesOf, segmentsIn, List.flatMap_map, List.map_flatMap, List.map_flatMap,
    List.flatMap_def, List.flatMap_def]
  refine congrArg List.flatten (List.map_congr_left fun m hm => ?_)
  obtain ⟨k, before, hplaced⟩ := h.placed_of_mem (hsome m hm)
  rw [hplaced.toPage_eq, map_bytes_decorate]

/-- A rest is empty as pieces exactly if it is empty as segments. -/
theorem isEmpty_rest_bytes (segments : List Segment) :
    (rest short (segments.map Segment.bytes)).isEmpty = (rest ends segments).isEmpty := by
  rw [rest_map, List.isEmpty_map]
  rfl

/-- The pages are numbered, and say whether they begin inside of a packet. -/
theorem Written.isStream (h : Written serialno e made queue) (hlength : made.length ≤ 2 ^ 32) :
    Paging.IsStream ends 0 [] (pagesOf made) := by
  -- The pages before are generalised: a page says whether it begins inside of a packet, and that
  -- depends on all segments before it.
  have hfrom : ∀ before after, made = before ++ after →
      Paging.IsStream ends before.length (rest ends (Paging.segments (pagesOf before)))
        (pagesOf after) := by
    intro before after
    induction after generalizing before with
    | nil => exact fun _ => trivial
    | cons m after ih =>
      intro hmade
      have hplaced := h.placed before.length m (by
        rw [hmade, List.getElem?_append_right (Nat.le_refl _), Nat.sub_self]
        rfl)
      rw [hmade, List.take_left] at hplaced
      have hlt : before.length < 2 ^ 32 := by
        rw [hmade, List.length_append, List.length_cons] at hlength
        omega
      -- The sender's segments carry granule positions, those of the pages may not; only the octets
      -- decide which packet is open.
      have hbefore : (rest ends (segmentsIn before)).isEmpty =
          (rest ends (Paging.segments (pagesOf before))).isEmpty := by
        have hbytes : (Paging.segments (pagesOf before)).map Segment.bytes =
            (segmentsIn before).map Segment.bytes := h.map_bytes fun m hm => by
          rw [hmade]
          exact List.mem_append_left _ hm
        rw [← isEmpty_rest_bytes, ← hbytes, isEmpty_rest_bytes]
      refine ⟨?_, ?_, ?_, ?_⟩
      · show m.page.toPage.number = _
        rw [hplaced.toPage_eq]
        exact Nat.mod_eq_of_lt hlt
      · show m.page.toPage.continued = _
        rw [hplaced.toPage_eq, ← hbefore]
      · -- No page is empty, so none can be lost without its number being missed.
        show m.page.toPage.segments ≠ []
        intro hnil
        rw [hplaced.toPage_eq] at hnil
        have hlength := congrArg List.length hnil
        rw [length_decorate, List.length_map] at hlength
        exact hplaced.nonempty (List.length_eq_zero_iff.mp hlength)
      · have hmore := ih (before ++ [m]) (by rw [hmade, List.append_assoc]; rfl)
        rw [List.length_append, List.length_singleton] at hmore
        have hsegments : Paging.segments (pagesOf (before ++ [m])) =
            Paging.segments (pagesOf before) ++ m.page.toPage.segments := by
          rw [pagesOf, List.map_append, Paging.segments, List.flatMap_append]
          exact congrArg (_ ++ ·) (List.append_nil _)
        rw [hsegments, rest_append] at hmore
        exact hmore
  exact hfrom [] made rfl

/-! ### Packets on the pages -/

/-- The two segments of a pair have the same octets. -/
theorem Written.bytes_of_mem (h : Written serialno e made queue) {x : Segment × Segment}
    (hx : x ∈ made.flatMap Made.pairs) : x.1.bytes = x.2.bytes := by
  obtain ⟨A, B, hsplit⟩ := List.append_of_mem hx
  obtain ⟨-, -, -, hbytes, -⟩ := h.pair_of_split hsplit
  exact hbytes

/-- So they end the same packets. -/
theorem Written.groups_pairs (h : Written serialno e made queue) {A : List (Segment × Segment)}
    (hA : ∀ x ∈ A, x ∈ made.flatMap Made.pairs) :
    groups ends (A.map Prod.snd) = (groups (fun x => ends x.1) A).map (List.map Prod.snd) := by
  rw [groups_map]
  refine congrArg _ (groups_congr fun x hx => ?_)
  unfold Segment.ends
  rw [h.bytes_of_mem (hA x hx)]

/-- The segments of packet `k` give that packet. -/
theorem Written.heard_group (h : Written serialno e made queue) {k : Nat}
    {g : List (Segment × Segment)}
    (hg : (groups (fun x => ends x.1) (made.flatMap Made.pairs))[k]? = some g) :
    ∃ op, heard (g.map Prod.fst) = some op ∧ IsPacket e.packets k op := by
  obtain ⟨front, tail, hsplit, hk, hrest⟩ := exists_of_getElem?_groups hg
  obtain ⟨init, x, rfl, hinit, hx⟩ := isGroup_of_mem (List.mem_of_getElem? hg)
  have hbefore : ∀ y ∈ front ++ init, y ∈ made.flatMap Made.pairs := fun y hy => by
    rw [hsplit, ← List.append_assoc, ← List.append_assoc]
    exact List.mem_append_left _ (List.mem_append_left _ hy)
  have hindex : (groups ends ((front ++ init).map Prod.snd)).length = k := by
    rw [h.groups_pairs hbefore, List.length_map, groups_append, hrest, List.nil_append,
      groups_of_open hinit, List.append_nil, hk]
  -- The octets are those of the packet that was submitted.
  have hsegments : (groups ends (segmentsIn made ++ queue))[k]? =
      some ((init ++ [x]).map Prod.snd) := by
    refine getElem?_groups_append ?_ queue
    rw [← h.map_snd_pairs fun m hm => hm, h.groups_pairs fun y hy => hy, List.getElem?_map, hg]
    rfl
  rw [h.segments, (groups_packetsOf 0 e.packets).1] at hsegments
  obtain ⟨granule₀, p, hp, hgroup⟩ := getElem?_packetsOf hsegments
  have hbytes : ((init ++ [x]).map Prod.fst).flatMap Segment.bytes = p.1 := by
    have hpacket := congrArg (List.map Segment.bytes) hgroup
    rw [map_bytes_segmentsOf, List.map_map] at hpacket
    rw [List.flatMap_def, List.map_map, ← flatten_lace 255 p.1, ← hpacket]
    refine congrArg List.flatten (List.map_congr_left fun y hy => ?_)
    exact h.bytes_of_mem (by
      rw [hsplit]
      exact List.mem_append_right _ (List.mem_append_left _ hy))
  -- The last segment has the granule position.
  obtain ⟨p', granule, hp', -, -, -, hgranule, hends⟩ := h.pair_of_split (A := front ++ init)
    (B := tail) (d := x.1) (s := x.2) (by
      rw [hsplit]
      simp only [List.append_assoc, List.cons_append, List.nil_append])
  rw [hindex] at hp' hends
  obtain rfl := Option.some.inj (hp.symm.trans hp')
  have hxends : x.1.ends = x.2.ends := by
    unfold Segment.ends
    rw [h.bytes_of_mem (by
      rw [hsplit]
      exact List.mem_append_right _ (List.mem_append_left _ (List.mem_append_right _
        List.mem_cons_self)))]
  have hlast : ((init ++ [x]).map Prod.fst).getLast?.bind Segment.granule = some granule := by
    rw [List.map_append, List.map_singleton, List.getLast?_concat, Option.bind_some, hgranule]
  -- The first segment has the mark of the beginning.
  obtain ⟨y, g', hg'⟩ : ∃ y g', init ++ [x] = y :: g' := by
    cases init with
    | nil => exact ⟨x, [], rfl⟩
    | cons y init => exact ⟨y, init ++ [x], rfl⟩
  obtain ⟨-, -, -, -, hgap, hbos, -⟩ := h.pair_of_split (A := front) (d := y.1) (s := y.2)
    (B := g' ++ tail) (by rw [hsplit, hg']; rfl)
  have hzero : front.isEmpty = decide (k = 0) := by
    have hflatten := @flatten_groups _ (fun x : Segment × Segment => ends x.1) front
    rw [hrest, List.append_nil] at hflatten
    rw [Bool.eq_iff_iff, List.isEmpty_iff, decide_eq_true_iff, ← hk, List.length_eq_zero_iff]
    constructor
    · rintro rfl
      rfl
    · intro hnone
      rw [← hflatten, hnone]
      rfl
  rw [hg'] at hbytes hlast ⊢
  have hgap' : ¬y.1.gap = true := by
    rw [hgap]
    exact Bool.false_ne_true
  refine ⟨_, (heard_cons y.1 (g'.map Prod.fst)).trans (if_neg hgap'), p, hp, hbytes,
    hbos.trans hzero, ?_⟩
  show (((y.1 :: g'.map Prod.fst).getLast?.bind Segment.granule).getD 0) = _ ∨ _ = _ ∨ _
  rw [show (y.1 :: g'.map Prod.fst).getLast?.bind Segment.granule = some granule from hlast]
  exact hends (hxends.symm.trans hx)

/-- Message `k` of the pages gives packet `k`. -/
theorem Written.heard_message (h : Written serialno e made queue) {k : Nat} {g : List Segment}
    (hg : (groups ends (Paging.segments (pagesOf made)))[k]? = some g) :
    ∃ op, heard g = some op ∧ IsPacket e.packets k op := by
  rw [← h.map_fst_pairs, groups_map, List.getElem?_map] at hg
  obtain ⟨g', hg', rfl⟩ := Option.map_eq_some_iff.mp hg
  exact h.heard_group hg'

/-! ### Any pages, in any order -/

variable {alloc alloc' : Nat → Bool}

/-- Only a reset changes which page is expected first. -/
theorem Listener.first_of_steps {l : Listener} {serialno : BitVec 32}
    (hrun : Steps Listener.step (fun l op => op.Heard l.decoder) (.init alloc serialno) l) :
    ∀ n ∈ l.first, n = 0 := by
  refine hrun.invariant (I := fun l => ∀ n ∈ l.first, n = 0)
    (fun n hn => (Option.some.inj hn).symm) ?_
  intro l op l' hl _ hstep
  obtain ⟨d, -, rfl⟩ := Option.map_eq_some_iff.mp hstep
  cases op with
  | pagein alloc og => exact hl
  | packetout op => exact hl
  | packetpeek op => exact hl
  | reset => exact fun n hn => absurd hn (Option.not_mem_none n)
  | resetSerialno serialno => exact fun n hn => absurd hn (Option.not_mem_none n)

/-- A packet that came out is one of those that the receiver reports. -/
theorem mem_of_mem_packets {l : Listener} {queue : List Segment} {s : Paging.Receiver Segment}
    {told : List (Option (List Segment))} (h : Tracks l.decoder s told queue) {op : OggPacket}
    (hop : op ∈ l.packets) : ∃ g ∈ told.filterMap id, heard g = some op.plain := by
  obtain ⟨entry, hentry, hsome⟩ := List.mem_filterMap.mp hop
  have hmem : some op.plain ∈ told.map (Option.bind · heard) := by
    rw [← h.log]
    refine List.mem_append_left _ (List.mem_map.mpr ⟨entry, hentry, ?_⟩)
    rw [show entry = some op from hsome]
    rfl
  obtain ⟨r, hr, hheard⟩ := List.mem_map.mp hmem
  obtain ⟨g, rfl, hg⟩ := Option.bind_eq_some_iff.mp hheard
  exact ⟨g, List.mem_filterMap.mpr ⟨some g, hr, rfl⟩, hg⟩

variable {l : Listener} {serialno' : BitVec 32}

/-- Only packets that were sent come out, whatever pages arrive, in whatever order and how often.
The octets, the granule position and the mark of the first packet are those that were sent. -/
theorem sent_of_steps
    (hsent : Steps Encoder.step (fun _ op => op.Allowed) (.init alloc serialno) e)
    (hcheck : e.state.check = 0) (hlength : e.pages.length ≤ 2 ^ 32)
    (hheard : Steps Listener.step (fun l op => op.Heard l.decoder) (.init alloc' serialno') l)
    (hcheck' : l.decoder.state.check = 0) (harrived : ∀ og ∈ l.pages, og ∈ e.pages) :
    ∀ op ∈ l.packets, ∃ k, IsPacket e.packets k op := by
  obtain ⟨made, queue, h⟩ := exists_written hsent hcheck
  obtain ⟨queue', htracks⟩ := Listener.invariant_of_steps hheard (check_eq_zero.mp hcheck')
  have hmade : made.length ≤ 2 ^ 32 := by
    rwa [h.pages, List.length_map] at hlength
  -- The receiver sees only pages that were made, and the abstract receiver gives no other messages.
  have hpages : ∀ p ∈ l.pages.map OggPage.toPage, p ∈ pagesOf made := by
    intro p hp
    obtain ⟨og, hog, rfl⟩ := List.mem_map.mp hp
    have hmem := harrived og hog
    rw [h.pages] at hmem
    obtain ⟨m, hm, rfl⟩ := List.mem_map.mp hmem
    exact List.mem_map.mpr ⟨m, hm, rfl⟩
  intro op hop
  obtain ⟨g, hg, hheard⟩ := mem_of_mem_packets htracks hop
  rw [Listener.reports, Paging.Receiver.filterMap_reports] at hg
  have hmessage := Paging.mem_groups_of_mem_run (h.isStream hmade) hpages (.inl rfl) g hg
  obtain ⟨k, hk⟩ := List.mem_iff_getElem?.mp hmessage
  obtain ⟨op', hop', hpacket⟩ := h.heard_message hk
  obtain rfl := Option.some.inj (hheard.symm.trans hop')
  exact ⟨k, hpacket⟩

/-- Two pages in the wrong order: a gap is reported before each. -/
theorem sent_of_steps_reversed :
    ∃ e l, runActions (guarded Encoder.step fun _ op => decide op.Allowed) (.init (fun _ => true) 7)
        twoPackets = some e ∧
      runActions (guarded Listener.step fun l op => decide (op.Heard l.decoder))
        (.init (fun _ => true) 7)
        (e.pages.reverse.map (.pagein fun _ => true) ++ List.replicate 4 (.packetout true)) =
          some l ∧
      l.packets.map OggPacket.packet = [[9], [1, 2, 3]] ∧
      ∀ op ∈ l.packets, ∃ k, IsPacket e.packets k op := by
  have hrun : ((runActions (guarded Encoder.step fun _ op => decide op.Allowed)
      (.init (fun _ => true) 7) twoPackets).bind fun e =>
        (runActions (guarded Listener.step fun l op => decide (op.Heard l.decoder))
          (.init (fun _ => true) 7)
          (e.pages.reverse.map (.pagein fun _ => true) ++ List.replicate 4 (.packetout true))).map
            fun l => (l.packets.map OggPacket.packet,
              decide (e.state.check = 0 ∧ e.pages.length ≤ 2 ^ 32 ∧
                l.decoder.state.check = 0 ∧ ∀ og ∈ l.pages, og ∈ e.pages))) =
        some ([[9], [1, 2, 3]], true) := by
    decide +kernel
  obtain ⟨e, he, hrun⟩ := Option.bind_eq_some_iff.mp hrun
  obtain ⟨l, hl, hboth⟩ := Option.map_eq_some_iff.mp hrun
  obtain ⟨hpackets, hpages⟩ := Prod.mk.inj hboth
  obtain ⟨hcheck, hlength, hcheck', harrived⟩ := of_decide_eq_true hpages
  exact ⟨e, l, he, hl, hpackets, sent_of_steps
    (steps_of_runActions (fun _ _ h => of_decide_eq_true h) he) hcheck hlength
    (steps_of_runActions (fun _ _ h => of_decide_eq_true h) hl) hcheck' harrived⟩

/-! ### Pages that are lost -/

/-- The numbers of the pages that each packet lies on, in the order of the packets. -/
def spans (pages : List OggPage) : List (List Nat) :=
  (groups (fun x : UInt8 × Nat => x.1 < 255)
    (pages.flatMap fun og => (og.table.getD []).map fun size => (size, og.pageno.getD 0))).map
      (List.map Prod.snd)

/-- The packets all of whose pages arrive. These are numbers of packets, in their order. -/
def surviving (keep : Nat → Bool) (pages : List OggPage) : List Nat :=
  ((spans pages).zipIdx.filter fun x => x.1.all keep).map Prod.snd

/-- Two lists filtered by one test of the positions, with what is known of the elements at each. -/
theorem forall₂_filter {γ δ : Type} {P : Nat → δ → Prop} {f : γ → Option δ} {q : γ → Bool}
    {xs : List γ} (n : Nat)
    (h : ∀ (k : Nat) (x : γ), xs[k]? = some x → ∃ y, f x = some y ∧ P (n + k) y) :
    List.Forall₂ P (((xs.zipIdx n).filter fun x => q x.1).map Prod.snd)
      ((xs.filter q).filterMap f) := by
  induction xs generalizing n with
  | nil => exact .nil
  | cons x xs ih =>
    have hrest := ih (n + 1) fun k y hk => by
      obtain ⟨z, hz, hP⟩ := h (k + 1) y hk
      exact ⟨z, hz, by rwa [Nat.add_right_comm, Nat.add_assoc]⟩
    obtain ⟨y, hy, hP⟩ := h 0 x rfl
    rw [List.zipIdx_cons, List.filter_cons, List.filter_cons]
    split
    · rw [List.map_cons, List.filterMap_cons, hy]
      exact .cons hP hrest
    · exact hrest

/-- The pages of the segments of each packet. -/
theorem Written.spans_eq (h : Written serialno e made queue) :
    spans e.pages = (groups (fun x => ends x.1) ((pagesOf made).flatMap Paging.numbered)).map
      (List.map Prod.snd) := by
  -- Page by page, the table lists the sizes of the segments that the page shows.
  have hentry : ∀ m ∈ made, ((m.page.table.getD []).map fun size => (size, m.page.pageno.getD 0)) =
      (Paging.numbered m.page.toPage).map fun x => (UInt8.ofNat x.1.bytes.length, x.2) := by
    intro m hm
    obtain ⟨k, before, hplaced⟩ := h.placed_of_mem hm
    have hshows := hplaced.shows
    rw [hshows.toPage_eq, hshows.table, hshows.pageno, Option.getD_some, Option.getD_some,
      Paging.numbered, List.map_map, tableOf]
    show _ = (decorate m.info.bos false m.info.granulepos m.info.pieces).map
      ((fun b => (UInt8.ofNat b.length, m.info.pageno)) ∘ Segment.bytes)
    rw [← List.map_map, map_bytes_decorate, List.map_map]
    rfl
  -- Put together over all pages, in their order.
  have hsizes : (e.pages.flatMap fun og =>
      (og.table.getD []).map fun size => (size, og.pageno.getD 0)) =
        ((pagesOf made).flatMap Paging.numbered).map
          fun x => (UInt8.ofNat x.1.bytes.length, x.2) := by
    rw [h.pages, pagesOf, List.flatMap_map, List.flatMap_map, List.map_flatMap, List.flatMap_def,
      List.flatMap_def]
    exact congrArg List.flatten (List.map_congr_left hentry)
  -- The table has one octet for a size, which is enough since no segment is longer than 255.
  have hfits : ∀ x ∈ (pagesOf made).flatMap Paging.numbered, x.1.bytes.length ≤ 255 := by
    intro x hx
    obtain ⟨p, hp, hx⟩ := List.mem_flatMap.mp hx
    obtain ⟨m, hm, rfl⟩ := List.mem_map.mp hp
    obtain ⟨s, hs, rfl⟩ := List.mem_map.mp hx
    obtain ⟨k, before, hplaced⟩ := h.placed_of_mem hm
    rw [hplaced.shows.toPage_eq] at hs
    exact fits_decorate hplaced.shows.fits s hs
  unfold spans
  rw [hsizes, groups_map, List.map_map]
  rw [@groups_congr _ _ _ fun x : Segment × Nat => ends x.1]
  · refine List.map_congr_left fun g _ => ?_
    rw [Function.comp_apply, List.map_map]
    rfl
  · intro x hx
    rw [Bool.eq_iff_iff, decide_eq_true_iff]
    exact size_lt (hfits x hx)

/-- If pages are lost the packets all of whose pages arrive come out, in their order. The pages that
do arrive are in their order, and the receiver has given what it has. -/
theorem survived_of_steps
    (hsent : Steps Encoder.step (fun _ op => op.Allowed) (.init alloc serialno) e)
    (hcheck : e.state.check = 0) (hlength : e.pages.length ≤ 2 ^ 32)
    (hheard : Steps Listener.step (fun l op => op.Heard l.decoder) (.init alloc' serialno') l)
    (hcheck' : l.decoder.state.check = 0) (keep : Nat → Bool)
    (hlost : l.pages = e.pages.filter fun og => keep (og.pageno.getD 0)) {packet : Option OggPacket}
    {os : OggStreamState} (hdone : l.decoder.state.packetout true = some (0, packet, os)) :
    List.Forall₂ (IsPacket e.packets) (surviving keep e.pages) l.packets := by
  obtain ⟨made, queue, h⟩ := exists_written hsent hcheck
  obtain ⟨queue', htracks⟩ := Listener.invariant_of_steps hheard (check_eq_zero.mp hcheck')
  have hmade : made.length ≤ 2 ^ 32 := by
    rwa [h.pages, List.length_map] at hlength
  -- The pages that arrive are those of the sender that are kept, by their numbers.
  have hpages : l.pages.map OggPage.toPage = (pagesOf made).filter fun p => keep p.number := by
    rw [hlost, h.pages, pagesOf, List.filter_map, List.map_map, List.filter_map]
    rfl
  -- A receiver gives the messages all of whose pages arrive.
  have hrun := Paging.run_filter (s := ⟨l.first, []⟩) (h.isStream hmade)
    (Listener.first_of_steps hheard) rfl keep
  -- The receiver's reports without the gaps are the packets that came out.
  have hpackets : l.packets.map OggPacket.plain =
      ((Paging.Receiver.mk l.first []).run ends (l.pages.map OggPage.toPage)).filterMap heard := by
    have hlog := congrArg (List.filterMap id) (htracks.complete hdone)
    rw [List.filterMap_map, List.filterMap_map] at hlog
    rw [← Paging.Receiver.filterMap_reports, List.filterMap_filterMap, Listener.packets,
      List.map_filterMap]
    exact hlog
  -- Each message of the sender is a packet that was submitted.
  have hmessages : ∀ (k : Nat) (g : List (Segment × Nat)),
      (groups (fun x => ends x.1) ((pagesOf made).flatMap Paging.numbered))[k]? = some g →
        ∃ op, heard (g.map Prod.fst) = some op ∧ IsPacket e.packets (0 + k) op := by
    intro k g hg
    rw [Nat.zero_add]
    refine h.heard_message ?_
    have hsegments : Paging.segments (pagesOf made) =
        ((pagesOf made).flatMap Paging.numbered).map Prod.fst := by
      rw [List.map_flatMap, Paging.segments]
      refine congrArg (fun f => (pagesOf made).flatMap f) (funext fun p => ?_)
      rw [Paging.numbered, List.map_map]
      exact (List.map_id _).symm
    rw [hsegments, groups_map, List.getElem?_map, hg]
    rfl
  have hall := forall₂_filter (q := fun g => g.all fun x => keep x.2) 0 hmessages
  -- Which messages these are can be told from the pages alone.
  have hsurviving : surviving keep e.pages =
      (((groups (fun x => ends x.1) ((pagesOf made).flatMap Paging.numbered)).zipIdx 0).filter
        fun x => x.1.all fun y => keep y.2).map Prod.snd := by
    rw [surviving, h.spans_eq, List.zipIdx_map, List.filter_map, List.map_map]
    refine congrArg _ (List.filter_congr fun x _ => ?_)
    show (x.1.map Prod.snd).all keep = _
    rw [List.all_map]
    rfl
  rw [hsurviving]
  refine (List.forall₂_map_right_iff (f := OggPacket.plain) (R := IsPacket e.packets)).mp ?_
  rw [hpackets, hpages, hrun, List.filterMap_map]
  exact hall

/-- The first page is lost. -/
theorem survived_of_steps_second :
    ∃ e l, runActions (guarded Encoder.step fun _ op => decide op.Allowed) (.init (fun _ => true) 7)
        twoPackets = some e ∧
      runActions (guarded Listener.step fun l op => decide (op.Heard l.decoder))
        (.init (fun _ => true) 7)
        ((e.pages.drop 1).map (.pagein fun _ => true) ++ [.packetout true, .packetout true]) =
          some l ∧
      surviving (· == 1) e.pages = [1] ∧
      List.Forall₂ (IsPacket e.packets) (surviving (· == 1) e.pages) l.packets := by
  -- Two packets on two pages, of which the first is lost. The computation is done once, for all
  -- facts about it.
  have hrun : ((runActions (guarded Encoder.step fun _ op => decide op.Allowed)
      (.init (fun _ => true) 7) twoPackets).bind fun e =>
        (runActions (guarded Listener.step fun l op => decide (op.Heard l.decoder))
          (.init (fun _ => true) 7)
          ((e.pages.drop 1).map (.pagein fun _ => true) ++
            [.packetout true, .packetout true])).map
            fun l => (surviving (· == 1) e.pages,
              (l.decoder.state.packetout true).map (fun r => (r.1, r.2.1)),
              decide (e.state.check = 0 ∧ e.pages.length ≤ 2 ^ 32 ∧ l.decoder.state.check = 0 ∧
                l.pages = e.pages.filter fun og => og.pageno.getD 0 == 1))) =
        some ([1], some (0, none), true) := by
    decide +kernel
  obtain ⟨e, he, hrun⟩ := Option.bind_eq_some_iff.mp hrun
  obtain ⟨l, hl, hall⟩ := Option.map_eq_some_iff.mp hrun
  obtain ⟨hsurviving, hboth⟩ := Prod.mk.inj hall
  obtain ⟨hanswer, hpages⟩ := Prod.mk.inj hboth
  obtain ⟨hcheck, hlength, hcheck', hlost⟩ := of_decide_eq_true hpages
  obtain ⟨⟨ret, packet, os⟩, hdone, hzero⟩ := Option.map_eq_some_iff.mp hanswer
  obtain ⟨rfl, rfl⟩ := Prod.mk.inj hzero
  exact ⟨e, l, he, hl, hsurviving, survived_of_steps
    (steps_of_runActions (fun _ _ h => of_decide_eq_true h) he) hcheck hlength
    (steps_of_runActions (fun _ _ h => of_decide_eq_true h) hl) hcheck' (· == 1) hlost hdone⟩

/-! ### The octets of all pages -/

/-- The pages are of the stream, and sealed. -/
theorem Written.addressed (h : Written serialno e made queue) :
    ∀ og ∈ e.pages, og.addressed serialno = true ∧ Sealed og := by
  intro og hog
  rw [h.pages] at hog
  obtain ⟨m, hm, rfl⟩ := List.mem_map.mp hog
  obtain ⟨k, before, hplaced⟩ := h.placed_of_mem hm
  exact ⟨(hplaced.shows.addressed_iff serialno).mpr ⟨hplaced.serialno, hplaced.version⟩,
    hplaced.sealed⟩

/-- Without a lost page the log has the packets, and no report of a gap. -/
theorem Written.packet_of_log (h : Written serialno e made queue) {log : List (Option OggPacket)}
    (hlog : log.map (Option.map OggPacket.plain) <+:
      ((groups ends (Paging.segments (pagesOf made))).map some).map (Option.bind · heard))
    {k : Nat} {entry : Option OggPacket} (hk : log[k]? = some entry) :
    ∃ op, entry = some op ∧ IsPacket e.packets k op := by
  obtain ⟨more, hmore⟩ := hlog
  have hentry : (log.map (Option.map OggPacket.plain) ++ more)[k]? =
      some (entry.map OggPacket.plain) := by
    rw [List.getElem?_append_left, List.getElem?_map, hk, Option.map_some]
    rw [List.length_map]
    exact (List.getElem?_eq_some_iff.mp hk).1
  rw [hmore, List.map_map, List.getElem?_map] at hentry
  obtain ⟨g, hg, hgroup⟩ := Option.map_eq_some_iff.mp hentry
  obtain ⟨op, hop, hpacket⟩ := h.heard_message hg
  have hsome : some op = entry.map OggPacket.plain := hop.symm.trans hgroup
  obtain ⟨op', rfl, rfl⟩ := Option.map_eq_some_iff.mp hsome.symm
  exact ⟨op', rfl, hpacket⟩

/-- While the octets of the pages arrive, in chunks of any sizes, the first packets come out, in
their order and with their numbers, and no gap. When all octets have arrived, and the encoder had
nothing left, all packets come out. -/
theorem delivered_of_steps
    (hsent : Steps Encoder.step (fun _ op => op.Allowed) (.init alloc serialno) e)
    (hcheck : e.state.check = 0) (hlength : e.pages.length ≤ 2 ^ 32) {p : Player}
    (hplay : Steps Player.step (fun p op => op.Allowed p) (.init alloc' serialno) p)
    (hcheck' : p.listener.decoder.state.check = 0)
    (hfed : p.syncer.fed <+: e.pages.flatMap OggPage.bytes) :
    (∀ (k : Nat) (entry : Option OggPacket), p.listener.decoder.log[k]? = some entry →
      ∃ op, entry = some op ∧ op.packetno = k ∧ IsPacket e.packets k op) ∧
    ∀ os oy os', p.syncer.fed = e.pages.flatMap OggPage.bytes →
      e.state.flush = some (0, none, os) → p.syncer.state.pageout = some (0, none, oy) →
        p.listener.decoder.state.packetout true = some (0, none, os') →
          p.listener.decoder.log.length = e.packets.length := by
  obtain ⟨made, queue, h⟩ := exists_written hsent hcheck
  have hplayer := Player.invariant_of_steps hplay
  have hallocated := check_eq_zero.mp hcheck'
  obtain ⟨queue', htracks⟩ := hplayer.listener hallocated
  have hmade : made.length ≤ 2 ^ 32 := by
    rwa [h.pages, List.length_map] at hlength
  have hscan : scan (e.pages.flatMap OggPage.bytes) = e.pages := by
    have hpages := scan_pages (fun og hog => (h.addressed og hog).2) []
    have hnil : scan [] = [] := scan_incomplete rfl
    rwa [List.append_nil, hnil, List.append_nil] at hpages
  have hreports : (Paging.Receiver.mk (some 0) []).reports ends (e.pages.map OggPage.toPage) =
      (groups ends (Paging.segments (pagesOf made))).map some := by
    rw [h.pages, List.map_map]
    exact Paging.reports_stream (h.isStream hmade) (fun n hn => (Option.some.inj hn).symm) rfl
  -- The pages that were found are the first ones.
  obtain ⟨bytes, hbytes⟩ := hfed
  have hfound : p.syncer.pages ++ scan (p.syncer.state.unread ++ bytes) = e.pages := by
    rw [hplayer.syncer.scan, hbytes, hscan]
  have harrived : p.listener.pages = p.syncer.pages := by
    unfold Listener.pages
    rw [hplayer.arrived, hplayer.serialno hallocated, List.filter_eq_self]
    intro og hog
    refine (h.addressed og ?_).1
    rw [← hfound]
    exact List.mem_append_left _ hog
  have htold : p.listener.reports <+: (groups ends (Paging.segments (pagesOf made))).map some := by
    rw [← hreports, ← hfound, List.map_append, Paging.Receiver.reports_append, Listener.reports,
      hplayer.first, harrived]
    exact List.prefix_append _ _
  have hlog : p.listener.decoder.log.map (Option.map OggPacket.plain) <+:
      ((groups ends (Paging.segments (pagesOf made))).map some).map (Option.bind · heard) :=
    List.IsPrefix.trans ⟨_, htracks.log⟩ (htold.map _)
  refine ⟨fun k entry hk => ?_, fun os oy os' hall hflush hpage hpacket => ?_⟩
  · obtain ⟨op, rfl, hop⟩ := h.packet_of_log hlog hk
    exact ⟨op, rfl, htracks.numbers k op hk, hop⟩
  · have hqueue : queue = [] := by
      obtain ⟨result, hcall, hresult⟩ := h.pending.flushI true 4096
      obtain rfl := Option.some.inj (hflush.symm.trans hcall)
      cases hresult with
      | nothing hforce => exact hforce rfl
    have hcomplete := htracks.complete hpacket
    have hpages : p.syncer.pages = e.pages := by
      rw [hplayer.syncer.complete hpage, hall, hscan]
    have hgroups : (groups ends (Paging.segments (pagesOf made))).length = e.packets.length := by
      have hsegments := h.segments
      rw [hqueue, List.append_nil] at hsegments
      have hpackets := congrArg List.length (map_bytes_packetsOf 0 e.packets)
      rw [List.length_map, List.length_map, ← (groups_packetsOf 0 e.packets).1, ← hsegments,
        ← h.map_snd_pairs fun m hm => hm, h.groups_pairs fun x hx => hx,
        List.length_map] at hpackets
      rw [← h.map_fst_pairs, groups_map, List.length_map, hpackets]
    rw [Listener.reports, hplayer.first, harrived, hpages, hreports, List.map_map] at hcomplete
    have hlengths := congrArg List.length hcomplete
    rwa [List.length_map, List.length_map, hgroups] at hlengths

/-- The octets arrive in two chunks. -/
def twoChunks (bytes : Bytes) : List PlayOp :=
  [.sync (fun _ => true) (.buffer (fun _ => true) 4096),
    .sync (fun _ => true) (.wrote (bytes.take 40)), .sync (fun _ => true) .pageout, .packetout,
    .sync (fun _ => true) (.wrote (bytes.drop 40)), .sync (fun _ => true) .pageout, .packetout]

/-- Two packets in two chunks. -/
theorem delivered_of_steps_two :
    ∃ e p, runActions (guarded Encoder.step fun _ op => decide op.Allowed) (.init (fun _ => true) 7)
        twoPackets = some e ∧
      runActions (guarded Player.step fun p op => decide (op.Allowed p)) (.init (fun _ => true) 7)
        (twoChunks (e.pages.flatMap OggPage.bytes)) = some p ∧
      p.listener.packets.map OggPacket.packet = [[1, 2, 3], [9]] ∧
      ((∀ (k : Nat) (entry : Option OggPacket), p.listener.decoder.log[k]? = some entry →
        ∃ op, entry = some op ∧ op.packetno = k ∧ IsPacket e.packets k op) ∧
      ∀ os oy os', p.syncer.fed = e.pages.flatMap OggPage.bytes →
        e.state.flush = some (0, none, os) → p.syncer.state.pageout = some (0, none, oy) →
          p.listener.decoder.state.packetout true = some (0, none, os') →
            p.listener.decoder.log.length = e.packets.length) := by
  -- The octets of both pages in two chunks that are cut inside of a page.
  have hrun : ((runActions (guarded Encoder.step fun _ op => decide op.Allowed)
      (.init (fun _ => true) 7) twoPackets).bind fun e =>
        (runActions (guarded Player.step fun p op => decide (op.Allowed p)) (.init (fun _ => true) 7)
          (twoChunks (e.pages.flatMap OggPage.bytes))).map
          fun p => (p.listener.packets.map OggPacket.packet,
            decide (e.state.check = 0 ∧ e.pages.length ≤ 2 ^ 32 ∧
              p.listener.decoder.state.check = 0 ∧
              p.syncer.fed = e.pages.flatMap OggPage.bytes))) =
        some ([[1, 2, 3], [9]], true) := by
    decide +kernel
  obtain ⟨e, he, hrun⟩ := Option.bind_eq_some_iff.mp hrun
  obtain ⟨p, hp, hboth⟩ := Option.map_eq_some_iff.mp hrun
  obtain ⟨hpackets, hpages⟩ := Prod.mk.inj hboth
  obtain ⟨hcheck, hlength, hcheck', hfed⟩ := of_decide_eq_true hpages
  exact ⟨e, p, he, hp, hpackets, delivered_of_steps
    (steps_of_runActions (fun _ _ h => of_decide_eq_true h) he) hcheck hlength
    (steps_of_runActions (fun _ _ h => of_decide_eq_true h) hp) hcheck'
    (hfed ▸ List.prefix_refl _)⟩

end TSubSpec.Ogg
