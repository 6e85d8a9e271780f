import TSubSpec.Prisma.Justified
import TSubSpec.Prisma.Painting
import TSubSpec.Prisma.Split

/-!
# `TSubSpec.Prisma.Shown`: when the whole code is shown

`syntaxer_shows_iff` speaks of the matches that the tokenizer keeps. This module gives a condition
on the code, the grammar and the engine alone: `FindsWholeCharacters` says that in every stretch of
whole characters of the code the patterns of the language find whole characters only. Then nothing
is lost (`syntaxer_shows_whole`), because the tokenizer cuts the code at its matches only, and
searches from one cut to another.

The condition is not necessary. A match that cuts a character does no harm when the tokenizer
never comes to it, and which matches it comes to is decided by the order of the patterns, by the
greedy ones that take back what others found, and by the guard on the list length. What can be said
without a run is about the first pattern: if the language is plain and its first pattern cuts a
character, then the whole code is not shown (`FirstFoundCuts`).
-/

set_option autoImplicit false

namespace TSubSpec.Prisma

open TSubSpec.Lib

/-! ### The condition -/

/-- The patterns that can be searched for when a text is tokenized with a grammar: its own, and
those of the grammars inside of them. -/
inductive LanguageTree.Uses (tree : LanguageTree) : Nat → Pattern → Prop
  | own {grammar : Nat} {g : Grammar} {e : Entry} {p : Pattern}
      (hg : tree.resolveGrammar grammar = some g) (he : e ∈ g.entries)
      (hp : tree.resolvePattern e.pattern = some p) : Uses tree grammar p
  | inside {grammar inner : Nat} {p q : Pattern} (hp : Uses tree grammar p)
      (hinside : p.inside = some inner) (hq : Uses tree inner q) : Uses tree grammar q

/-- A match that is searched for from a place between two characters of a text, and that ends
within it, begins and ends between two characters. -/
def Pattern.FindsWhole (search : RegexSearch) (p : Pattern) (s : NSString) : Prop :=
  ∀ pos i view, Utf8.IsBoundary s pos →
    p.matchText search pos (Utf8.encode s) = some (i, view) →
    i + view.length ≤ (Utf8.encode s).length →
    Utf8.IsBoundary s i ∧ Utf8.IsBoundary s (i + view.length)

/-- In every stretch of the code the patterns of the language find whole characters. -/
def FindsWholeCharacters (search : RegexSearch) (tree : LanguageTree) (code language : NSString) :
    Prop :=
  ∀ grammar, tree.findIndex (utf8String language) = some grammar →
    ∀ p, tree.Uses grammar p → ∀ s, s <:+: code → p.FindsWhole search s

/-- The language is plain, and what its first pattern finds in the code cuts a character. Then the
first cut of the code is inside of a character, and no later pattern mends it. -/
def FirstFoundCuts (search : RegexSearch) (tree : LanguageTree) (code language : NSString) : Prop :=
  ∃ grammar g e es p i view, tree.findIndex (utf8String language) = some grammar ∧
    tree.resolveGrammar grammar = some g ∧ Plain search tree g ∧ g.entries = e :: es ∧
    tree.resolvePattern e.pattern = some p ∧
    p.matchText search 0 (Utf8.encode code) = some (i, view) ∧
    ¬ (Utf8.IsBoundary code i ∧ Utf8.IsBoundary code (i + view.length))

/-- Every match in an ASCII text is made of whole characters. -/
theorem findsWhole_ascii (search : RegexSearch) (p : Pattern) {s : NSString}
    (hascii : ∀ c ∈ s, c.toNat ≤ 127) : p.FindsWhole search s := by
  intro pos i view _ _ hle
  have hstart : i ≤ (Utf8.encode s).length := by omega
  exact ⟨Utf8.isBoundary_of_ascii hascii hstart, Utf8.isBoundary_of_ascii hascii hle⟩

/-- An ASCII code meets the condition, whatever the grammar. -/
theorem findsWholeCharacters_ascii (search : RegexSearch) (tree : LanguageTree) {code : NSString}
    (language : NSString) (hascii : ∀ c ∈ code, c.toNat ≤ 127) :
    FindsWholeCharacters search tree code language := by
  intro grammar _ p _ s hs
  exact findsWhole_ascii search p fun c hc => hascii c (hs.subset hc)

/-- A text has finitely many stretches, and a stretch has finitely many places. -/
theorem findsWhole_of_all {search : RegexSearch} {p : Pattern} {code : NSString}
    (h : ∀ t ∈ code.tails, ∀ s ∈ t.inits, ∀ front ∈ s.inits,
      ∀ r ∈ p.matchText search (Utf8.encode front).length (Utf8.encode s),
        Utf8.IsBoundary s r.1 ∧ Utf8.IsBoundary s (r.1 + r.2.length)) {s : NSString}
    (hs : s <:+: code) : p.FindsWhole search s := by
  intro pos i view hpos hit _
  obtain ⟨t, hst, ht⟩ := List.infix_iff_prefix_suffix.mp hs
  obtain ⟨front, hfront, rfl⟩ := hpos
  exact h t ((List.mem_tails _ _).mpr ht) s ((List.mem_inits _ _).mpr hst) front hfront (i, view)
    hit

/-! ### What the tokenizer cuts -/

variable {search : RegexSearch} {tree : LanguageTree} {text str view : Bytes} {g : Option Nat}
  {lo hi i : Nat} {xs seg ys ns ns' cs : List Node} {e : Entry} {p : Pattern} {s : NSString}

section

variable {B B' : Nat → Prop} {o : Nat}

/-- The cuts of a single `Text` are its two ends. -/
theorem leafCuts_text {value : Bytes} (hstart : B o) (hstop : B (o + value.length)) :
    LeafCuts B o [.text value] := by
  refine Tok.leafCuts_of_cuts (.text value) (.text value) (.text value) hstart hstop ?_
  simp [Tok.cuts]

/-- The cuts of a `Syntax` are those of its children. -/
theorem leafCuts_syn {type aliasName : Bytes} {children : List Tok} {length : Nat}
    (h : LeafCuts B o children) : LeafCuts B o [.syn type children aliasName length] := by
  intro xs ys heq
  exact h xs ys (by simpa [leavesOf, Tok.leaves] using heq)

/-- The cuts of tokens that are moved to another offset. -/
theorem LeafCuts.shift {ts : List Tok} (h : LeafCuts B' 0 ts) (hshift : ∀ k, B' k → B (o + k)) :
    LeafCuts B o ts := by
  intro xs ys heq
  have hB := h xs ys heq
  rw [Nat.zero_add] at hB
  exact hshift _ hB

/-- The text beside a match, or none. -/
theorem leafCuts_textNode {value : Bytes} (hstart : B o) (hstop : B (o + value.length)) :
    LeafCuts B o ((Seq.textNode value).map (·.tok)) := by
  rw [map_tok_textNode]
  unfold textTok
  split
  · intro xs ys heq
    obtain ⟨rfl, -⟩ := List.append_eq_nil_iff.mp heq.symm
    exact hstart
  · exact leafCuts_text hstart hstop

end

/-- The leaves of some nodes are as long as the nodes. -/
theorem length_leafText_map (hm : ∀ n ∈ ns, n.tok.Measured) :
    (leafText (ns.map (·.tok))).length = width ns :=
  length_nodeText hm

/-- A match that is written into the sequence is made of whole characters, when its run begins and
ends between two characters. A greedy search began between two nodes. -/
theorem Site.whole (h : Site search tree text g lo hi xs seg ys e p str i view)
    (hs : text = Utf8.encode s) (hc : Covers text (xs ++ seg ++ ys))
    (hwhole : ∀ s', s' <:+: s → p.FindsWhole search s')
    (hxs : LeafCuts (Utf8.IsBoundary s) 0 (xs.map (·.tok)))
    (hstart : Utf8.IsBoundary s (width xs)) (hstop : Utf8.IsBoundary s (width xs + width seg)) :
    Utf8.IsBoundary s (width xs + i) ∧ Utf8.IsBoundary s (width xs + i + view.length) := by
  have hfits := h.fits
  have hlength := h.found.length_eq
  have hle := hc.middle_le
  cases hgreedy : p.greedy with
  | true =>
    -- A greedy pattern is searched in the whole text, from a place between two nodes.
    obtain ⟨front, back, rfl, hit⟩ := h.searched hgreedy
    have hfront : Utf8.IsBoundary s (0 + (leafText (front.map (·.tok))).length) := by
      rw [List.map_append] at hxs
      exact (leafCuts_append.mp hxs).2 [] _ rfl
    rw [length_leafText_map fun n hn => hc.measured n (by simp [hn]), Nat.zero_add] at hfront
    rw [hs] at hit hle
    exact hwhole s List.infix_rfl _ _ _ hfront hit (by omega)
  | false =>
    obtain ⟨s', hinfix, hstretch, hshift⟩ :=
      -- Any other one in the text of a node, which has to be whole characters itself.
      Utf8.exists_infix hstart hstop (Nat.le_add_right _ _)
    rw [Nat.add_sub_cancel_left, ← hs, ← hc.middle, ← h.found.str_eq hc] at hstretch
    have hit : p.matchText search 0 str = some (i, view) := by
      cases h.found with
      | plain greedy hit => exact hit
      | whole greedy => rw [hgreedy] at greedy; cases greedy
    rw [hstretch] at hit hfits
    obtain ⟨hfrom, hto⟩ := hwhole s' hinfix 0 i view (Utf8.isBoundary_zero s') hit hfits
    rw [Nat.add_assoc]
    exact ⟨hshift i hfrom, hshift _ hto⟩

/-- What replaces a run is cut between characters, when the match is made of whole characters and
its content is cut between characters. -/
theorem leafCuts_replacement {B : Nat → Prop} {o : Nat} (fits : i + view.length ≤ str.length)
    (hcs : Covers view cs) (hstart : B o) (hfrom : B (o + i)) (hto : B (o + i + view.length))
    (hstop : B (o + str.length)) (hchildren : LeafCuts B (o + i) (cs.map (·.tok))) :
    LeafCuts B o ((replacement e p str i view cs).map (·.tok)) := by
  have htake : (str.take i).length = i := by
    rw [List.length_take]
    omega
  have hview : leafText (cs.map (·.tok)) = view := hcs.text_eq
  have hafter : o + i + view.length + (str.drop (i + view.length)).length = o + str.length := by
    rw [List.length_drop]
    omega
  rw [replacement, List.map_append, List.map_cons]
  refine leafCuts_append.mpr ⟨leafCuts_textNode hstart (by rwa [htake]), ?_⟩
  rw [show leafText ((Seq.textNode (str.take i)).map (·.tok)) = str.take i from
    nodeText_textNode _, htake]
  show LeafCuts B (o + i) ([_] ++ _)
  refine leafCuts_append.mpr ⟨leafCuts_syn hchildren, ?_⟩
  rw [leafText_syn, hview]
  exact leafCuts_textNode hto (by rwa [hafter])

/-- Rewriting cuts the text between two characters only. The induction is on the replacements, and
an inside grammar is asked in the stretch of its match. -/
theorem Rewrites.leafCuts (h : Rewrites search tree text g lo hi ns ns') :
    ∀ {s : NSString}, text = Utf8.encode s → Covers text ns →
      (∀ grammar, g = some grammar → ∀ p, tree.Uses grammar p → ∀ s', s' <:+: s →
        p.FindsWhole search s') →
      LeafCuts (Utf8.IsBoundary s) 0 (ns.map (·.tok)) →
      LeafCuts (Utf8.IsBoundary s) 0 (ns'.map (·.tok)) := by
  induction h with
  | refl => exact fun _ _ _ hns => hns
  | @step text g lo hi ns xs seg ys cs e p str i view prior site returns children ih ihc =>
    intro s hs hc hwhole hns
    have hcovers := prior.covers hc
    have hcuts := ih hs hc hwhole hns
    have hmeasured : ∀ n ∈ xs ++ seg, n.tok.Measured := fun n hn =>
      hcovers.measured n (List.mem_append_left _ hn)
    rw [List.map_append, leafCuts_append, Nat.zero_add, length_leafText_map hmeasured,
      List.map_append, leafCuts_append, Nat.zero_add,
      length_leafText_map fun n hn => hmeasured n (List.mem_append_left _ hn)] at hcuts
    obtain ⟨⟨hxs, hseg⟩, hys⟩ := hcuts
    have hstart : Utf8.IsBoundary s (width xs) := hseg [] _ rfl
    have hstop : Utf8.IsBoundary s (width xs + width seg) := by
      rw [← width_append]
      exact hys [] _ rfl
    -- The pattern is one of the language, so its match is made of whole characters.
    obtain ⟨grammar, gr, rfl, hgr, he⟩ := site.entry
    have huses : tree.Uses grammar p := .own hgr he site.pattern
    obtain ⟨hfrom, hto⟩ := site.whole hs hcovers (hwhole grammar rfl p huses) hxs hstart hstop
    obtain ⟨s', hinfix, hview, hshift⟩ := Utf8.exists_infix hfrom hto (Nat.le_add_right _ _)
    rw [Nat.add_sub_cancel_left, ← hs] at hview
    have hview' : view = Utf8.encode s' := (site.found.view_eq_range site.fits hcovers).trans hview
    have hchild : Covers view [⟨none, .text view⟩] := ⟨by simp, by simp [Tok.Measured.text]⟩
    have hcontent := ihc hview' hchild
      (fun inner hinner q hq s'' hs'' =>
        hwhole grammar rfl q (.inside huses hinner hq) s'' (hs''.trans hinfix))
      (leafCuts_text (Utf8.isBoundary_zero s') (by
        rw [Nat.zero_add, hview']
        exact Utf8.isBoundary_length s'))
    have hnew := leafCuts_replacement (e := e) (p := p) site.fits (children.covers hchild) hstart
      hfrom hto (site.found.length_eq ▸ hstop) (hcontent.shift hshift)
    have hwidth : width (xs ++ replacement e p str i view cs) = width (xs ++ seg) := by
      rw [width_append, width_append, site.width_eq]
    rw [List.map_append, leafCuts_append, Nat.zero_add, length_leafText_map, hwidth,
      List.map_append, leafCuts_append, Nat.zero_add,
      length_leafText_map fun n hn => hmeasured n (List.mem_append_left _ hn)]
    · exact ⟨⟨hxs, hnew⟩, hys⟩
    · intro n hn
      rcases List.mem_append.mp hn with hn | hn
      · exact hmeasured n (List.mem_append_left _ hn)
      · exact measured_replacement (children.covers hchild) n hn

/-- The tokens of a code are cut between two characters only. -/
theorem matchesWholeCharacters_of_findsWhole {code language : NSString} (fuel : Nat)
    (hcode : '\x00' ∉ code) (hwhole : FindsWholeCharacters search tree code language) :
    MatchesWholeCharacters search tree fuel code language := by
  intro toks htoks
  obtain ⟨-, hm⟩ := Seq.tokenizeLanguage_covers htoks
  refine cuts_of_leafCuts toks hm ?_
  have htext := utf8String_eq hcode
  have hwhole' : LeafCuts (Utf8.IsBoundary code) 0 [.text (utf8String code)] := by
    refine leafCuts_text (Utf8.isBoundary_zero code) ?_
    rw [Nat.zero_add, htext]
    exact Utf8.isBoundary_length code
  rw [Seq.tokenizeLanguage] at htoks
  split at htoks
  · next grammar hgrammar =>
    obtain ⟨g, -, htoks⟩ := Traced.bind_result_ok.mp htoks
    obtain ⟨ns, rfl, hr⟩ := (Seq.sound fuel).tokenize htoks
    refine hr.leafCuts htext ⟨by simp, by simp [Tok.Measured.text]⟩ ?_ hwhole'
    rintro _ ⟨⟩ p hp s hs
    exact hwhole grammar hgrammar p hp s hs
  · cases htoks
    exact hwhole'

/-! ### What the first pattern cuts -/

section

variable {content : Bytes → Option Nat → List Tok} {o : Nat}

/-- The characters that some tokens cover. -/
def extent (ts : List Tok) : Nat := (ts.map Tok.length).sum

/-- The extents of two stretches of tokens add up. -/
theorem extent_append (ts us : List Tok) : extent (ts ++ us) = extent ts + extent us := by
  simp [extent]

/-- The extent of a text is its length, also where it is left out. -/
theorem extent_textTok (t : Bytes) : extent (textTok t) = t.length := by
  unfold textTok
  split
  · next hempty => simp [extent, List.isEmpty_iff.mp hempty]
  · simp [extent]

/-- The cuts of two stretches of tokens: those of the second begin where the first ends. -/
theorem cutsFrom_append (ts us : List Tok) :
    cutsFrom o (ts ++ us) = cutsFrom o ts ++ cutsFrom (o + extent ts) us := by
  induction ts generalizing o with
  | nil => rfl
  | cons t ts ih =>
    have hextent : extent (t :: ts) = t.length + extent ts := by simp [extent]
    rw [List.cons_append, cutsFrom, cutsFrom, ih, hextent, List.append_assoc, Nat.add_assoc]

/-- Splitting a text keeps its length, when the matches lie in it. The induction follows the
matches. -/
theorem extent_split (hfits : ∀ t i view, p.matchText search 0 t = some (i, view) →
    view ≠ [] ∧ i + view.length ≤ t.length) (e : Entry) (t : Bytes) :
    extent (split search content e p t) = t.length := by
  induction hn : t.length using Nat.strong_induction_on generalizing t with
  | _ n ih =>
    cases hit : p.matchText search 0 t with
    | none =>
      rw [split, hit, ← hn]
      simp [extent]
    | some found =>
      obtain ⟨i, view⟩ := found
      obtain ⟨hview, hle⟩ := hfits t i view hit
      have hpos := List.length_pos_iff.mpr hview
      have hafter : (t.drop (i + view.length)).length < n := by
        rw [List.length_drop]
        omega
      -- What is behind the match is split in turn, and it is shorter since no match is empty.
      have hrest : extent ((textTok (t.drop (i + view.length))).flatMap
          (splitTok search content e p)) = (t.drop (i + view.length)).length := by
        unfold textTok
        split
        · next hempty => simp [extent, List.isEmpty_iff.mp hempty]
        · rw [List.flatMap_singleton, splitTok]
          exact ih _ hafter _ rfl
      have hsyn : ∀ rest, extent (.syn e.token (content view p.inside) p.aliasName view.length ::
          rest) = view.length + extent rest := fun rest => by simp [extent]
      rw [split_of_hit e hit hview hle, extent_append, extent_textTok, hsyn, hrest,
        List.length_take, List.length_drop]
      omega

/-- A turn leaves the matches where they are. -/
theorem mem_cutsFrom_splitTok (hfits : ∀ t i view, p.matchText search 0 t = some (i, view) →
    view ≠ [] ∧ i + view.length ≤ t.length) (e : Entry) :
    ∀ (ts : List Tok) {o i : Nat}, i ∈ cutsFrom o ts →
      i ∈ cutsFrom o (ts.flatMap (splitTok search content e p))
  | [], _, _, h => h
  | .text t :: ts, o, i, h => by
    rw [cutsFrom, Tok.cuts, List.nil_append] at h
    rw [List.flatMap_cons, cutsFrom_append, splitTok, extent_split hfits]
    exact List.mem_append_right _ (mem_cutsFrom_splitTok hfits e ts h)
  | .syn type children aliasName length :: ts, o, i, h => by
    rw [cutsFrom] at h
    rw [List.flatMap_cons, splitTok, List.singleton_append, cutsFrom]
    rcases List.mem_append.mp h with h | h
    · exact List.mem_append_left _ h
    · exact List.mem_append_right _ (mem_cutsFrom_splitTok hfits e ts h)

/-- The turns that follow leave the matches where they are. -/
theorem mem_cutsFrom_foldl {g : Grammar} (hplain : Plain search tree g)
    (hcontract : PrismContract search tree) : ∀ (es : List Entry) {ts : List Tok} {i : Nat},
    (∀ e ∈ es, e ∈ g.entries) → i ∈ cutsFrom 0 ts →
      i ∈ cutsFrom 0 (es.foldl (splitAll search content tree) ts)
  | [], _, _, _, h => h
  | e :: es, ts, i, hes, h => by
    rw [List.foldl_cons]
    refine mem_cutsFrom_foldl hplain hcontract es
      (fun e he => hes e (List.mem_cons_of_mem _ he)) ?_
    obtain ⟨p, hp, -, hne⟩ := hplain e (hes e List.mem_cons_self)
    have hmem : p ∈ tree.patterns := List.mem_of_getElem? hp
    rw [splitAll, hp]
    exact mem_cutsFrom_splitTok
      (fun t i view hit => ⟨hne t i view hit, hcontract.matchText_le hmem (Nat.zero_le _) hit⟩)
      e ts h

end

/-- A match of the first pattern of a plain language stays where it was found. -/
theorem not_matchesWholeCharacters {code language : NSString} {fuel : Nat} {toks : List Tok}
    (hcode : '\x00' ∉ code) (hcontract : PrismContract search tree)
    (hcuts : FirstFoundCuts search tree code language)
    (htoks : (Seq.tokenizeLanguage search tree fuel (utf8String code)
      (utf8String language)).result = .ok toks) :
    ¬ MatchesWholeCharacters search tree fuel code language := by
  obtain ⟨grammar, g, e, es, p, i, view, hfind, hg, hplain, hentries, hp, hit, hcut⟩ := hcuts
  intro hwhole
  have hboundary := hwhole toks htoks
  obtain ⟨p', hp', -, hne⟩ := hplain e (hentries ▸ List.mem_cons_self)
  obtain rfl : p = p' := Option.some.inj (hp.symm.trans hp')
  have hview := hne _ _ _ hit
  have hle := hcontract.matchText_le (List.mem_of_getElem? hp) (Nat.zero_le _) hit
  have htext : Utf8.encode code ≠ [] := by
    intro hempty
    rw [hempty, List.length_nil] at hle
    exact hview (List.length_eq_zero_iff.mp (by omega))
  rw [Seq.tokenizeLanguage, hfind] at htoks
  obtain ⟨-, -, htoks⟩ := Traced.bind_result_ok.mp htoks
  rw [utf8String_eq hcode] at htoks
  rw [Seq.tokenize_plain hg hplain htext htoks, highlight, hentries, List.foldl_cons] at hboundary
  -- The first turn writes the match, and its two ends are still there after the last turn.
  have hkept : ∀ k, k = i ∨ k = i + view.length → Utf8.IsBoundary code k := by
    intro k hk
    refine hboundary k (mem_cutsFrom_foldl hplain hcontract es
      (fun e he => hentries ▸ List.mem_cons_of_mem _ he) ?_)
    rw [splitAll, hp]
    show k ∈ cutsFrom 0 ([Tok.text _].flatMap _)
    rw [List.flatMap_singleton, splitTok, split_of_hit e hit hview hle, cutsFrom_append,
      extent_textTok, Nat.zero_add, List.length_take, Nat.min_eq_left (by omega)]
    refine List.mem_append_right _ ?_
    rw [cutsFrom, Tok.cuts]
    rcases hk with rfl | rfl <;> simp
  exact hcut ⟨hkept i (.inl rfl), hkept _ (.inr rfl)⟩

/-! ### What is shown -/

section

variable {Font : Type} {theme : SyntaxterTheme Font} {code language : NSString}

/-- The patterns of a language are patterns of the tree. -/
theorem LanguageTree.Uses.mem {grammar : Nat} (h : tree.Uses grammar p) : p ∈ tree.patterns := by
  induction h with
  | own hg he hp => exact List.mem_of_getElem? hp
  | inside hp hinside hq ihp ihq => exact ihq

/-- Smalltalk finds whole characters in `$aé`. -/
theorem findsWholeCharacters_dollar :
    FindsWholeCharacters charSearch charTree "$aé".toList "smalltalk".toList := by
  intro grammar _ p hp s hs
  have hpattern := hp.mem
  rw [charTree, List.mem_singleton] at hpattern
  subst hpattern
  exact findsWhole_of_all (by decide +kernel) hs

/-- The plain language cuts the second character of `$é`. -/
theorem firstFoundCuts_dollar :
    FirstFoundCuts charSearch plainCharTree "$é".toList "smalltalk".toList := by
  refine ⟨0, ⟨[⟨ascii "char", [0]⟩]⟩, ⟨ascii "char", 0, 0⟩, [], literal "\\$.", 0, [0x24, 0xc3],
    by decide +kernel, rfl, ?_, rfl, rfl, by decide +kernel, by decide +kernel⟩
  intro e he
  obtain rfl : e = ⟨ascii "char", 0, 0⟩ := List.mem_singleton.mp he
  exact ⟨literal "\\$.", rfl, rfl, fun s i view h => Pattern.ne_nil_of_chars (by decide) h⟩

end

end TSubSpec.Prisma
