import TSubSpec.Lib.Lacing

/-!
# `TSubSpec.Lib.Paging`: groups that are sent in numbered pages

A sender puts the segments of its messages into pages. It numbers the pages and says of each
whether it begins inside of a message (`IsStream`). A `Receiver` keeps what it has of the message in
progress, and drops it when the number of a page is not the one that it expects; of a page that
continues a message whose beginning it does not have it leaves out the end of that message. It
reports its messages, and the places where pages are missing.

Whatever pages arrive, in whatever order and how often, the receiver gives only messages that were
sent (`mem_groups_of_mem_run`). If pages are lost it gives those messages all of whose pages
arrive, in their order (`run_filter`). If none is lost it gives all of them and no reports of gaps
(`reports_stream`).
-/

set_option autoImplicit false

namespace TSubSpec.Lib.Paging

open Lacing

variable {β : Type} (ends : β → Bool)

/-- A page with its number, and whether it begins inside of a message. What it brings are segments
of any type. -/
structure Page (β : Type) where
  number : Nat
  continued : Bool
  segments : List β

/-- The pages from number `i` on, when `r` is what stands before them of the message in progress. No
page is empty, and each says whether it continues a message. -/
def IsStream : Nat → List β → List (Page β) → Prop
  | _, _, [] => True
  | i, r, p :: pages =>
    p.number = i ∧ p.continued = !r.isEmpty ∧ p.segments ≠ [] ∧
      IsStream (i + 1) (rest ends (r ++ p.segments)) pages

/-- The number that is expected, if there is one, and what has arrived of the message in
progress. -/
structure Receiver (β : Type) where
  next : Option Nat
  carry : List β

namespace Receiver

/-- What can be used of the message in progress when page `i` arrives: all of it, or nothing if
another page is expected. -/
def carried (s : Receiver β) (i : Nat) : List β := if some i = s.next then s.carry else []

/-- The segments of the page that can be used: all of them, or those behind the first message if its
beginning is missing. -/
def kept (s : Receiver β) (p : Page β) : List β :=
  if p.continued && (s.carried p.number).isEmpty then behind ends p.segments else p.segments

/-- The messages that the page completes, with what was carried in front of the first one. -/
def messages (s : Receiver β) (p : Page β) : List (List β) :=
  groups ends (s.carried p.number ++ s.kept ends p)

/-- What the receiver is when a page has arrived: it expects the next number, and carries what
stands behind the last complete message. -/
def accept (s : Receiver β) (p : Page β) : Receiver β :=
  ⟨some (p.number + 1), rest ends (s.carried p.number ++ s.kept ends p)⟩

/-- All messages that some pages give, in the order in which they are completed. -/
def run : Receiver β → List (Page β) → List (List β)
  | _, [] => []
  | s, p :: pages => s.messages ends p ++ run (s.accept ends p) pages

/-- The receiver when some pages have arrived: what it carries then, and which page it expects. -/
def after (s : Receiver β) (pages : List (Page β)) : Receiver β := pages.foldl (accept ends) s

/-- A gap is reported if another page is expected. At the beginning no page is, so none is
reported. -/
def gap (s : Receiver β) (i : Nat) : List (Option (List β)) :=
  if s.next = none ∨ s.next = some i then [] else [none]

/-- The messages of some pages, and the gaps before them. A gap is `none`. -/
def reports : Receiver β → List (Page β) → List (Option (List β))
  | _, [] => []
  | s, p :: pages =>
    s.gap p.number ++ (s.messages ends p).map some ++ reports (s.accept ends p) pages

/-- The reports of two runs of pages, one behind the other: the second run begins where the first
one has left the receiver. -/
theorem reports_append (s : Receiver β) (pages more : List (Page β)) :
    s.reports ends (pages ++ more) =
      s.reports ends pages ++ (s.after ends pages).reports ends more := by
  induction pages generalizing s with
  | nil => rfl
  | cons p pages ih =>
    rw [List.cons_append, reports, ih, reports, ← List.append_assoc]
    rfl

/-- One more page adds the report of a gap, if its number is not the expected one, and the messages
that it completes. -/
theorem reports_concat (s : Receiver β) (pages : List (Page β)) (p : Page β) :
    s.reports ends (pages ++ [p]) = s.reports ends pages ++ ((s.after ends pages).gap p.number ++
      ((s.after ends pages).messages ends p).map some) := by
  rw [reports_append, reports, reports, List.append_nil]

/-- One more page is accepted by the receiver that the pages before it have left. -/
theorem after_concat (s : Receiver β) (pages : List (Page β)) (p : Page β) :
    s.after ends (pages ++ [p]) = (s.after ends pages).accept ends p := List.foldl_concat ..

/-- The report of a gap is no message. -/
theorem filterMap_gap (s : Receiver β) (i : Nat) : (s.gap i).filterMap id = [] := by
  unfold gap
  split <;> rfl

/-- The messages among the reports. -/
theorem filterMap_reports (s : Receiver β) (pages : List (Page β)) :
    (s.reports ends pages).filterMap id = s.run ends pages := by
  induction pages generalizing s with
  | nil => rfl
  | cons p pages ih =>
    rw [reports, List.filterMap_append, List.filterMap_append, filterMap_gap, List.filterMap_map,
      ih, run]
    exact congrArg (· ++ _) (List.filterMap_some)

end Receiver

variable {ends} {i : Nat} {r page : List β} {p : Page β} {pages : List (Page β)} {s : Receiver β}

/-! ### The end of a message at the head of a page -/

/-- What is left out of a page belongs to the first group, if the page completes it. -/
theorem groups_behind (hr : ∀ x ∈ r, ends x = false) (page : List β) :
    groups ends (r ++ page) = [] ∧ groups ends (behind ends page) = [] ∧
        rest ends (r ++ page) = r ++ page ∧ rest ends (behind ends page) = [] ∨
      ∃ g, groups ends (r ++ page) = (r ++ g) :: groups ends (behind ends page) ∧
        rest ends (r ++ page) = rest ends (behind ends page) := by
  rcases @behind_cases _ ends page with ⟨hopen, hbehind⟩ | ⟨g, hg, hpage⟩
  · have hall : ∀ x ∈ r ++ page, ends x = false := by
      intro x hx
      rcases List.mem_append.mp hx with hx | hx
      · exact hr x hx
      · exact hopen x hx
    rw [hbehind]
    exact .inl ⟨groups_of_open hall, rfl, rest_of_open hall, rfl⟩
  · refine .inr ⟨g, ?_⟩
    have hrg := hg.append hr
    rw [show r ++ page = (r ++ g) ++ behind ends page by rw [List.append_assoc, ← hpage]]
    exact ⟨groups_group hrg _, rest_group hrg _⟩

/-! ### Any pages, in any order -/

/-- The segments of some pages. -/
def segments (pages : List (Page β)) : List β := pages.flatMap Page.segments

/-- A page of a stream stands behind as many pages as its number says. -/
theorem IsStream.mem (h : IsStream ends i r pages) (hr : rest ends r = r) (hp : p ∈ pages) :
    ∃ before after, pages = before ++ p :: after ∧ p.number = i + before.length ∧
      p.continued = !(rest ends (r ++ segments before)).isEmpty := by
  induction pages generalizing i r with
  | nil => exact absurd hp List.not_mem_nil
  | cons q pages ih =>
    obtain ⟨hnumber, hcontinued, -, hpages⟩ := h
    rcases List.mem_cons.mp hp with rfl | hp
    · refine ⟨[], pages, rfl, hnumber, ?_⟩
      rw [segments, List.flatMap_nil, List.append_nil, hr, hcontinued]
    · obtain ⟨before, after, rfl, hnumber', hcontinued'⟩ := ih hpages (rest_rest _) hp
      refine ⟨q :: before, after, rfl, by rw [hnumber', List.length_cons]; omega, ?_⟩
      rw [hcontinued', segments, segments, List.flatMap_cons, ← List.append_assoc,
        rest_append (r ++ q.segments)]

/-- The receiver has nothing of the message in progress, or all that was sent. So it never puts a
message together from parts of two. -/
def Follows (ends : β → Bool) (pages : List (Page β)) (s : Receiver β) : Prop :=
  s.carry = [] ∨ ∃ before after, pages = before ++ after ∧ s.next = some before.length ∧
    s.carry = rest ends (segments before)

/-- What a page completes is a message, if its beginning is what was sent before the page. -/
theorem groups_page {before after : List (Page β)} {g : List β}
    (hg : g ∈ groups ends (rest ends (segments before) ++ p.segments)) :
    g ∈ groups ends (segments (before ++ p :: after)) := by
  have hsegments : segments (before ++ p :: after) =
      segments before ++ p.segments ++ segments after := by
    rw [segments, List.flatMap_append, List.flatMap_cons, ← List.append_assoc]
    rfl
  rw [hsegments, groups_append (segments before ++ p.segments), groups_append (segments before)]
  exact List.mem_append_left _ (List.mem_append_right _ hg)

/-- What stands behind the end of the message in progress is complete as it was sent. -/
theorem groups_behind_subset (hr : ∀ x ∈ r, ends x = false) {g : List β}
    (hg : g ∈ groups ends (behind ends page)) : g ∈ groups ends (r ++ page) := by
  rcases groups_behind hr page with ⟨-, hnone, -⟩ | ⟨g', hgroups, -⟩
  · rw [hnone] at hg
    exact absurd hg List.not_mem_nil
  · rw [hgroups]
    exact List.mem_cons_of_mem _ hg

/-- Before each page of a stream the receiver carries nothing, or what the pages before it have left
behind their last complete message. -/
theorem Follows.carried (h : Follows ends pages s) {before after : List (Page β)}
    (hpages : pages = before ++ p :: after) (hnumber : p.number = before.length) :
    s.carried p.number = [] ∨ s.carried p.number = rest ends (segments before) := by
  unfold Receiver.carried
  split
  · next hnext =>
    rcases h with hnil | ⟨before', after', hpages', hnext', hcarry⟩
    · exact .inl hnil
    · have hlength : before'.length = before.length := by
        rw [hnext', hnumber] at hnext
        exact (Option.some.inj hnext).symm
      obtain ⟨rfl, -⟩ := List.append_inj (hpages'.symm.trans hpages) hlength
      exact .inr hcarry
  · exact .inl rfl

/-- A page gives messages that were sent, and leaves a receiver that follows the stream. -/
theorem Follows.accept (hstream : IsStream ends 0 [] pages) (h : Follows ends pages s)
    (hp : p ∈ pages) :
    (∀ g ∈ s.messages ends p, g ∈ groups ends (segments pages)) ∧
      Follows ends pages (s.accept ends p) := by
  obtain ⟨before, after, hpages, hnumber, hcontinued⟩ := hstream.mem rfl hp
  rw [List.nil_append] at hcontinued
  rw [Nat.zero_add] at hnumber
  have hopen : ∀ x ∈ rest ends (segments before), ends x = false := fun x => rest_open
  have hafter : pages = (before ++ [p]) ++ after := by
    rw [hpages, List.append_assoc]
    rfl
  have hrest : rest ends (segments (before ++ [p])) =
      rest ends (rest ends (segments before) ++ p.segments) := by
    rw [segments, List.flatMap_append, List.flatMap_singleton, rest_append]
    rfl
  have hnext : some (p.number + 1) = some (before ++ [p]).length := by
    rw [List.length_append, List.length_singleton, hnumber]
  unfold Receiver.messages Receiver.accept Receiver.kept Follows
  rw [hcontinued]
  by_cases hskip : (s.carried p.number).isEmpty = true ∧
      (rest ends (segments before)).isEmpty = false
  · -- The beginning of the message in progress is missing.
    rw [List.isEmpty_iff.mp hskip.1, hskip.2]
    simp only [Bool.not_false, List.isEmpty_nil, Bool.and_true, if_true, List.nil_append]
    constructor
    · intro g hg
      rw [hpages]
      exact groups_page (groups_behind_subset hopen hg)
    · rcases groups_behind hopen p.segments with ⟨-, -, -, hnil⟩ | ⟨g, -, hsame⟩
      · exact .inl hnil
      · exact .inr ⟨before ++ [p], after, hafter, hnext, by rw [hrest, hsame]⟩
  · have hcarried : s.carried p.number = rest ends (segments before) := by
      rcases h.carried hpages hnumber with hnil | hcarried
      · rw [hnil] at hskip ⊢
        have hempty : (rest ends (segments before)).isEmpty = true := by
          by_contra hne
          exact hskip ⟨rfl, Bool.eq_false_iff.mpr hne⟩
        exact (List.isEmpty_iff.mp hempty).symm
      · exact hcarried
    rw [hcarried, Bool.not_and_self]
    simp only [Bool.false_eq_true, if_false]
    constructor
    · intro g hg
      rw [hpages]
      exact groups_page hg
    · exact .inr ⟨before ++ [p], after, hafter, hnext, hrest.symm⟩

/-- Only messages that were sent come out, whatever pages arrive. -/
theorem mem_groups_of_mem_run (hstream : IsStream ends 0 [] pages) {arrived : List (Page β)}
    (harrived : ∀ p ∈ arrived, p ∈ pages) (h : Follows ends pages s) :
    ∀ g ∈ s.run ends arrived, g ∈ groups ends (segments pages) := by
  induction arrived generalizing s with
  | nil => exact fun g hg => absurd hg List.not_mem_nil
  | cons p arrived ih =>
    obtain ⟨hmessages, hnext⟩ := h.accept hstream (harrived p List.mem_cons_self)
    intro g hg
    rcases List.mem_append.mp hg with hg | hg
    · exact hmessages g hg
    · exact ih (fun q hq => harrived q (List.mem_cons_of_mem _ hq)) hnext g hg

/-! ### Pages that are lost -/

/-- The segments of a page, each with whether the page arrives. A message arrives if all its
segments do. -/
def tag (keep : Nat → Bool) (p : Page β) : List (β × Bool) :=
  p.segments.map fun x => (x, keep p.number)

/-- The messages all of whose segments arrive, in their order. -/
def survivors (ends : β → Bool) (tagged : List (β × Bool)) : List (List β) :=
  ((groups (fun x => ends x.1) tagged).filter fun g => g.all Prod.snd).map (List.map Prod.fst)

variable {keep : Nat → Bool} {tagged front : List (β × Bool)}

/-- What is left of the message in progress: nothing if a part of it is lost. -/
def intact (front : List (β × Bool)) : List β :=
  if front.all Prod.snd then front.map Prod.fst else []

/-- The messages that survive can be computed piece by piece, as the complete groups can. -/
theorem survivors_append (front tagged : List (β × Bool)) :
    survivors ends (front ++ tagged) =
      survivors ends front ++ survivors ends (rest (fun x => ends x.1) front ++ tagged) := by
  unfold survivors
  rw [groups_append, List.filter_append, List.map_append]

/-- Nothing is lost if all segments arrive. -/
theorem survivors_of_all (h : ∀ x ∈ tagged, x.2 = true) :
    survivors ends tagged = groups ends (tagged.map Prod.fst) ∧
      intact (rest (fun x => ends x.1) tagged) = rest ends (tagged.map Prod.fst) := by
  constructor
  · unfold survivors
    rw [List.filter_eq_self.mpr, groups_map]
    intro g hg
    exact List.all_eq_true.mpr fun x hx => h x (mem_of_mem_groups hg hx)
  · unfold intact
    rw [if_pos (List.all_eq_true.mpr fun x hx => h x (mem_of_mem_rest hx)), rest_map]

/-- A page that is lost completes nothing, and leaves nothing. -/
theorem survivors_of_lost (hfront : ∀ x ∈ front, ends x.1 = false) (hne : tagged ≠ [])
    (hlost : ∀ x ∈ tagged, x.2 = false) :
    survivors ends (front ++ tagged) = [] ∧
      intact (rest (fun x => ends x.1) (front ++ tagged)) = [] := by
  constructor
  · unfold survivors
    rw [List.map_eq_nil_iff, List.filter_eq_nil_iff]
    intro g hg hall
    obtain ⟨init, x, hinit, -, hx⟩ := isGroup_of_mem hg
    have hxg : x ∈ g := by
      rw [hinit]
      exact List.mem_append_right _ List.mem_cons_self
    rcases List.mem_append.mp (mem_of_mem_groups hg hxg) with hfrontx | htagged
    · exact absurd hx (Bool.eq_false_iff.mp (hfront x hfrontx))
    · have hkept := List.all_eq_true.mp hall x hxg
      rw [hlost x htagged] at hkept
      cases hkept
  · unfold intact
    split
    · next hall =>
      by_contra hne'
      have hrest : rest (fun x => ends x.1) (front ++ tagged) ≠ [] := by
        intro hnil
        exact hne' (by rw [hnil]; rfl)
      -- The last segment of all is in the page.
      have hlast := congrArg List.getLast?
        (@flatten_groups _ (fun x : β × Bool => ends x.1) (front ++ tagged))
      rw [List.getLast?_append, List.getLast?_append, List.getLast?_eq_some_getLast hne,
        List.getLast?_eq_some_getLast hrest, Option.some_or, Option.some_or] at hlast
      have hkept := List.all_eq_true.mp hall _ (List.getLast_mem hrest)
      rw [Option.some.inj hlast, hlost _ (List.getLast_mem hne)] at hkept
      cases hkept
    · rfl

/-- The marks do not change the segments of a page. -/
theorem tag_map (p : Page β) : (tag keep p).map Prod.fst = p.segments := by
  rw [tag, List.map_map]
  exact List.map_id _

/-- Each segment has the mark of its page. -/
theorem tag_snd {x : β × Bool} (hx : x ∈ tag keep p) : x.2 = keep p.number := by
  obtain ⟨y, -, rfl⟩ := List.mem_map.mp hx
  rfl

/-- A page that arrives completes what is whole up to it. -/
theorem survivors_of_kept (hfront : ∀ x ∈ front, ends x.1 = false) (hkeep : keep p.number = true)
    (hcontinued : p.continued = !front.isEmpty) (hs : s.carried p.number = intact front) :
    survivors ends (front ++ tag keep p) = s.messages ends p ∧
      intact (rest (fun x => ends x.1) (front ++ tag keep p)) = (s.accept ends p).carry := by
  have htag : ∀ x ∈ tag keep p, x.2 = true := fun x hx => (tag_snd hx).trans hkeep
  unfold Receiver.messages Receiver.accept Receiver.kept
  rw [hcontinued, hs]
  by_cases hall : front.all Prod.snd = true
  · have hintact : intact front = front.map Prod.fst := if_pos hall
    have hskip : (!front.isEmpty && (front.map Prod.fst).isEmpty) = false := by
      cases front <;> rfl
    have hboth : ∀ x ∈ front ++ tag keep p, x.2 = true := by
      intro x hx
      rcases List.mem_append.mp hx with hx | hx
      · exact List.all_eq_true.mp hall x hx
      · exact htag x hx
    obtain ⟨hsurvivors, hrest⟩ := @survivors_of_all _ ends _ hboth
    rw [hintact, hskip, hsurvivors, hrest, List.map_append, tag_map]
    exact ⟨rfl, rfl⟩
  · -- The beginning of the message in progress is lost, so its end is left out.
    have hintact : intact front = [] := if_neg hall
    have hskip : (!front.isEmpty && ([] : List β).isEmpty) = true := by
      cases front with
      | nil => exact absurd rfl hall
      | cons x front => rfl
    have hbehind : ∀ x ∈ behind (fun x => ends x.1) (tag keep p), x.2 = true :=
      fun x hx => htag x (mem_of_mem_behind hx)
    obtain ⟨hsurvivors, hrest⟩ := @survivors_of_all _ ends _ hbehind
    rw [← behind_map, tag_map] at hsurvivors hrest
    rw [hintact, hskip, if_pos rfl, List.nil_append, ← hsurvivors, ← hrest]
    have hlost : ∀ g, (front ++ g).all Prod.snd = false := fun g => by
      rw [List.all_append, Bool.eq_false_iff.mpr hall, Bool.false_and]
    unfold survivors
    rcases groups_behind hfront (tag keep p) with ⟨hnone, hnone', hopen, hnil⟩ | ⟨g, hgroups, hsame⟩
    · rw [hnone, hnone', hopen, hnil]
      exact ⟨rfl, if_neg (by rw [hlost]; exact Bool.false_ne_true)⟩
    · rw [hgroups, hsame, List.filter_cons_of_neg (by rw [hlost]; exact Bool.false_ne_true)]
      exact ⟨rfl, rfl⟩

/-- The receiver gives what survives of the stream, from any place on. -/
theorem run_filter_from (hstream : IsStream ends i (front.map Prod.fst) pages)
    (hfront : ∀ x ∈ front, ends x.1 = false) (hnext : ∀ n ∈ s.next, n ≤ i)
    (hs : s.carried i = intact front) :
    s.run ends (pages.filter fun p => keep p.number) =
      survivors ends (front ++ pages.flatMap (tag keep)) := by
  induction pages generalizing i front s with
  | nil =>
    unfold survivors
    rw [List.flatMap_nil, List.append_nil, groups_of_open hfront]
    rfl
  | cons p pages ih =>
    obtain ⟨rfl, hcontinued, hne, hpages⟩ := hstream
    rw [List.isEmpty_map] at hcontinued
    have hstep : rest ends (front.map Prod.fst ++ p.segments) =
        (rest (fun x => ends x.1) (front ++ tag keep p)).map Prod.fst := by
      rw [← rest_map, List.map_append, tag_map]
    rw [hstep] at hpages
    have hopen : ∀ x ∈ rest (fun x => ends x.1) (front ++ tag keep p), ends x.1 = false :=
      fun x hx => @rest_open _ (fun x => ends x.1) x _ hx
    rw [List.flatMap_cons, ← List.append_assoc, survivors_append]
    -- A kept page closes what it completes; a lost one leaves a hole that the next kept page sees.
    by_cases hkeep : keep p.number = true
    · obtain ⟨hmessages, hcarry⟩ := survivors_of_kept hfront hkeep hcontinued hs
      rw [List.filter_cons, if_pos hkeep, Receiver.run, hmessages,
        ih hpages hopen (fun n hn => Nat.le_of_eq (Option.some.inj hn).symm)
          (by rw [hcarry]; exact if_pos rfl)]
    · have hne' : tag keep p ≠ [] := fun hnil => hne (by
        rw [← @tag_map _ keep p, hnil]
        rfl)
      obtain ⟨hmessages, hcarry⟩ := survivors_of_lost hfront hne' fun x hx =>
        (tag_snd hx).trans (Bool.eq_false_iff.mpr hkeep)
      rw [List.filter_cons, if_neg hkeep, hmessages, List.nil_append]
      refine ih hpages hopen (fun n hn => Nat.le_succ_of_le (hnext n hn)) ?_
      rw [hcarry]
      exact if_neg fun hsome => absurd (hnext _ hsome.symm) (Nat.not_succ_le_self _)

/-- The segments of a page, each with the number of the page. So the pages of a message can be
found. -/
def numbered (p : Page β) : List (β × Nat) := p.segments.map fun x => (x, p.number)

/-- If pages are lost, the messages all of whose pages arrive come out, in their order. -/
theorem run_filter (hstream : IsStream ends 0 [] pages) (hnext : ∀ n ∈ s.next, n = 0)
    (hs : s.carry = []) (keep : Nat → Bool) :
    s.run ends (pages.filter fun p => keep p.number) =
      ((groups (fun x => ends x.1) (pages.flatMap numbered)).filter fun g =>
        g.all fun x => keep x.2).map (List.map Prod.fst) := by
  have hcarried : s.carried 0 = [] := by
    unfold Receiver.carried
    rw [hs, ite_self]
  have hrun := @run_filter_from β ends 0 pages s keep [] hstream
    (fun _ hx => absurd hx List.not_mem_nil) (fun n hn => Nat.le_of_eq (hnext n hn)) hcarried
  have htag : pages.flatMap (tag keep) =
      (pages.flatMap numbered).map fun x => (x.1, keep x.2) := by
    rw [List.map_flatMap]
    exact congrArg (pages.flatMap ·) (funext fun p => by
      rw [numbered, List.map_map]
      rfl)
  rw [hrun, List.nil_append, survivors, htag, groups_map, List.filter_map, List.map_map]
  congr 1
  · exact funext fun g => by
      rw [Function.comp_apply, List.map_map]
      rfl
  · exact List.filter_congr fun g _ => by
      rw [Function.comp_apply, List.all_map]
      rfl

/-- Each page is the one that is expected, and begins where the one before ended. -/
theorem reports_stream_from (hstream : IsStream ends i r pages) (hr : ∀ x ∈ r, ends x = false)
    (hnext : s.next = none ∨ s.next = some i) (hs : s.carried i = r) :
    s.reports ends pages = (groups ends (r ++ segments pages)).map some := by
  induction pages generalizing i r s with
  | nil =>
    rw [segments, List.flatMap_nil, List.append_nil, groups_of_open hr]
    rfl
  | cons p pages ih =>
    obtain ⟨rfl, hcontinued, -, hpages⟩ := hstream
    -- A page that continues a packet finds its beginning, so nothing is dropped.
    have hkept : s.kept ends p = p.segments := by
      unfold Receiver.kept
      rw [hs, hcontinued]
      exact if_neg (by cases r <;> exact Bool.false_ne_true)
    have haccept : s.accept ends p = ⟨some (p.number + 1), rest ends (r ++ p.segments)⟩ := by
      unfold Receiver.accept
      rw [hs, hkept]
    have hcarried : (Receiver.mk (some (p.number + 1)) (rest ends (r ++ p.segments))).carried
        (p.number + 1) = rest ends (r ++ p.segments) := if_pos rfl
    rw [Receiver.reports, Receiver.gap, if_pos hnext, Receiver.messages, hs, hkept, haccept,
      ih hpages (fun x hx => rest_open hx) (.inr rfl) hcarried, List.nil_append,
      ← List.map_append, ← groups_append, List.append_assoc]
    rfl

/-- If nothing is lost all messages come out, and no gap is reported. -/
theorem reports_stream (hstream : IsStream ends 0 [] pages) (hnext : ∀ n ∈ s.next, n = 0)
    (hs : s.carry = []) : s.reports ends pages = (groups ends (segments pages)).map some := by
  have hnext' : s.next = none ∨ s.next = some 0 := by
    cases hn : s.next with
    | none => exact .inl rfl
    | some n => exact .inr (congrArg some (hnext n hn))
  refine reports_stream_from hstream (fun _ hx => absurd hx List.not_mem_nil) hnext' ?_
  unfold Receiver.carried
  rw [hs, ite_self]

end TSubSpec.Lib.Paging
