import TSubSpec.Prisma.LeafText

/-!
# `TSubSpec.Prisma.Justified`: every span comes from a search

`Tok.Justified` says of a `Syntax` at an offset of the text where it comes from: a token of the
grammar names it, a pattern of that token gives its alias, and the pattern's own search returned
exactly its range. Its children are the tokenization of that range, and justified in turn.
`Rewrites.justified` shows that no sequence of replacements leaves a node without a
justification, and `tokenize_justified` says so of the list the code returns.
-/

set_option autoImplicit false

namespace TSubSpec.Prisma

open TSubSpec.Lib
open TSubSpec.Lib.Traced

/-- The characters from `o` up to `o + l`. -/
abbrev range (text : Bytes) (o l : Nat) : Bytes := (text.drop o).take l

section

variable (search : RegexSearch) (tree : LanguageTree)

/-- The search of the pattern returned `[o, o + l)`: in a segment of the text that contains the
range, or in the whole text from some offset on. -/
inductive FoundAt (p : Pattern) (text : Bytes) (o l : Nat) : Prop
  | plain (a n : Nat) (greedy : p.greedy = false) (starts : a ≤ o) (fits : o + l ≤ a + n)
      (inside : a + n ≤ text.length)
      (hit : p.matchText search 0 (range text a n) = some (o - a, range text o l))
  | whole (q : Nat) (greedy : p.greedy = true) (le : q ≤ o) (fits : o + l ≤ text.length)
      (hit : p.matchText search q text = some (o, range text o l))

/-- Some run of `tokenize` returns a list of these tokens, with the text and the grammar as they
are. -/
def Tokenizes (text : Bytes) (grammar : Nat) (toks : List Tok) : Prop :=
  ∃ fuel list h cs,
    ((tokenize search tree fuel text grammar).run Heap.empty).result = .ok (list, h) ∧
    Rep h list cs ∧ cs.map (·.tok) = toks

/-- The children of a match of the pattern: the tokenization of the match by the inside grammar,
or its text when there is none. -/
def Content (p : Pattern) (view : Bytes) (children : List Tok) : Prop :=
  match p.inside with
  | none => children = [.text view]
  | some inside => Tokenizes search tree view inside children

mutual

/-- A token at the offset `o` of the text, under the grammar `g`, is justified. A text needs no
reason; a syntax token needs a pattern of the grammar that matches there, and children that are
justified in the match. -/
inductive Tok.Justified : Bytes → Option Nat → Nat → Tok → Prop
  | text {text : Bytes} {g : Option Nat} {o : Nat} (value : Bytes) :
      Tok.Justified text g o (.text value)
  | syn {text : Bytes} {grammar o : Nat} {type aliasName : Bytes} {children : List Tok}
      {length : Nat} {gr : Grammar} {t : GrammarToken} {path : Nat} {p : Pattern}
      (resolved : tree.resolveGrammar grammar = some gr) (token : t ∈ gr.tokens)
      (name : t.name = type) (pattern : path ∈ t.patterns)
      (resolvedPattern : tree.resolvePattern path = some p) (aliased : p.aliasName = aliasName)
      (found : FoundAt search p text o length)
      (content : Content search tree p (range text o length) children)
      (nested : JustifiedFrom (range text o length) p.inside 0 children) :
      Tok.Justified text (some grammar) o (.syn type children aliasName length)

/-- The tokens that follow each other from the offset `o` on are justified, each at the offset
behind the one before. -/
inductive JustifiedFrom : Bytes → Option Nat → Nat → List Tok → Prop
  | nil {text : Bytes} {g : Option Nat} {o : Nat} : JustifiedFrom text g o []
  | cons {text : Bytes} {g : Option Nat} {o : Nat} {t : Tok} {ts : List Tok}
      (head : Tok.Justified text g o t) (tail : JustifiedFrom text g (o + t.length) ts) :
      JustifiedFrom text g o (t :: ts)

end

end

variable {search : RegexSearch} {tree : LanguageTree} {text : Bytes} {g : Option Nat}
  {lo hi o i : Nat} {xs seg ys ns ns' cs : List Node} {e : Entry} {p : Pattern} {str view : Bytes}

/-- Two stretches of tokens are justified if the first is, and the second from behind the first. -/
theorem justifiedFrom_append : ∀ {o : Nat} (xs : List Node) {ys : List Node},
    JustifiedFrom search tree text g o ((xs ++ ys).map (·.tok)) ↔
      JustifiedFrom search tree text g o (xs.map (·.tok)) ∧
        JustifiedFrom search tree text g (o + width xs) (ys.map (·.tok))
  | o, [], ys => by simp [JustifiedFrom.nil]
  | o, n :: xs, ys => by
    simp only [List.cons_append, List.map_cons, width_cons, ← Nat.add_assoc]
    constructor
    · rintro (_ | ⟨hn, h⟩)
      obtain ⟨hx, hy⟩ := (justifiedFrom_append xs).mp h
      exact ⟨.cons hn hx, hy⟩
    · rintro ⟨_ | ⟨hn, hx⟩, hy⟩
      exact .cons hn ((justifiedFrom_append xs).mpr ⟨hx, hy⟩)

/-- A text node needs no pattern, so it is justified anywhere. -/
theorem justifiedFrom_textNode (s : Bytes) :
    JustifiedFrom search tree text g o ((Seq.textNode s).map (·.tok)) := by
  unfold Seq.textNode
  split
  · exact .nil
  · exact .cons (.text s) .nil

/-- What the algorithm returns on sequences, the code returns. -/
theorem Returns.tokenizes {grammar : Nat} {toks : List Tok}
    (h : Returns search tree text grammar toks) : Tokenizes search tree text grammar toks := by
  obtain ⟨fuel, hf⟩ := h
  obtain ⟨⟨list, h⟩, hr, cs, hrep, htoks, -⟩ := (mirrors fuel).tokenize.ok_right hf
  exact ⟨fuel, list, h, cs, hr, hrep, htoks⟩

/-- A match in a run of the text is the range at its offset. -/
theorem Found.view_eq_range (h : Found search p text (width xs) seg ys str i view)
    (fits : i + view.length ≤ str.length) (hc : Covers text (xs ++ seg ++ ys)) :
    view = range text (width xs + i) view.length := by
  have hview := h.view_eq fits
  have hlen := h.length_eq
  rw [h.str_eq hc, hc.middle, List.drop_take, List.drop_drop, List.take_take,
    Nat.min_eq_left (by omega)] at hview
  exact hview.symm

/-- The run of a search lies in the text. -/
theorem Covers.middle_le (hc : Covers text (xs ++ seg ++ ys)) :
    width xs + width seg ≤ text.length := by
  have h := length_nodeText hc.measured
  rw [hc.text_eq] at h
  simp only [width_append] at h
  omega

/-- The search behind a replacement returned the range of its `Syntax`. -/
theorem Found.foundAt (h : Found search p text (width xs) seg ys str i view)
    (fits : i + view.length ≤ str.length) (hc : Covers text (xs ++ seg ++ ys)) :
    FoundAt search p text (width xs + i) view.length := by
  have hview := h.view_eq_range fits hc
  have hlen := h.length_eq
  have hle := hc.middle_le
  have hstr := h.str_eq hc
  rw [hc.middle] at hstr
  generalize hpos : width xs = pos at h
  cases h with
  | @plain l _ _ _ _ greedy hit =>
    subst hpos
    refine .plain (width xs) (width [⟨l, .text str⟩]) greedy (Nat.le_add_right _ _) (by omega) hle
      ?_
    rw [Nat.add_sub_cancel_left, ← hview, range, ← hstr]
    exact hit
  | whole greedy hit pos_le lt lt_text run split inside =>
    subst hpos
    rw [Nat.add_sub_cancel' pos_le] at hview ⊢
    refine .whole _ greedy (p.le_of_matchText hit) (by omega) ?_
    rw [← hview]
    exact hit

/-- A replacement is justified when the search behind it is. -/
theorem justifiedFrom_replacement {grammar : Nat} {gr : Grammar}
    (hgr : tree.resolveGrammar grammar = some gr) (he : e ∈ gr.entries)
    (hp : tree.resolvePattern e.pattern = some p)
    (hfound : Found search p text (width xs) seg ys str i view)
    (fits : i + view.length ≤ str.length) (hc : Covers text (xs ++ seg ++ ys))
    (hcontent : Content search tree p view (cs.map (·.tok)))
    (hcs : JustifiedFrom search tree view p.inside 0 (cs.map (·.tok))) :
    JustifiedFrom search tree text (some grammar) (width xs)
      ((replacement e p str i view cs).map (·.tok)) := by
  obtain ⟨t, ht, he⟩ := List.mem_flatMap.mp he
  obtain ⟨x, hx, rfl⟩ := List.mem_mapIdx.mp he
  have hat := hfound.foundAt fits hc
  have hview := hfound.view_eq_range fits hc
  rw [replacement, justifiedFrom_append, width_textNode, List.length_take,
    Nat.min_eq_left (Nat.le_of_add_right_le fits)]
  refine ⟨justifiedFrom_textNode _, .cons ?_ (justifiedFrom_textNode _)⟩
  refine .syn hgr ht rfl (List.getElem_mem hx) hp rfl hat ?_ ?_
  · rwa [← hview]
  · rwa [← hview]

/-- Rewriting leaves every node justified. -/
theorem Rewrites.justified (h : Rewrites search tree text g lo hi ns ns') (hc : Covers text ns)
    (hj : JustifiedFrom search tree text g 0 (ns.map (·.tok))) :
    JustifiedFrom search tree text g 0 (ns'.map (·.tok)) := by
  induction h with
  | refl => exact hj
  | @step text g lo hi ns xs seg ys cs e p str i view prior site returns children ih ihc =>
    have hns := prior.covers hc
    have hcs := ihc ⟨by simp, by simp [Tok.Measured.text]⟩ (.cons (.text view) .nil)
    obtain ⟨grammar, gr, rfl, hgr, he⟩ := site.entry
    have hcontent : Content search tree p view (cs.map (·.tok)) := by
      unfold Content
      split
      · rename_i hnone
        rw [hnone] at children
        rw [children.eq_of_none]
        rfl
      · rename_i inside hinside
        exact (returns inside hinside).tokenizes
    have hj := ih hc hj
    rw [justifiedFrom_append, justifiedFrom_append, Nat.zero_add] at hj ⊢
    refine ⟨⟨hj.1.1, justifiedFrom_replacement hgr he site.pattern site.found site.fits hns
      hcontent hcs⟩, ?_⟩
    simpa only [width_append, site.width_eq] using hj.2

/-! ### The list the code returns -/

/-- If the run returns a list, then all of its tokens are justified under the grammar `g`. A run
that fails returns none. -/
def ReturnsJustified (search : RegexSearch) (tree : LanguageTree) (text : Bytes) (g : Option Nat)
    (x : Traced Fault Event (TokenList × Heap)) : Prop :=
  ∀ list h, x.result = .ok (list, h) →
    ∃ cs, Rep h list cs ∧ JustifiedFrom search tree text g 0 (cs.map (·.tok))

/-- The tokens that `tokenize` returns are justified from the start of its text: every rewriting
step puts in a token that its pattern justifies, and moves no other. -/
theorem Seq.tokenize_justifiedFrom {fuel grammar : Nat} {toks : List Tok}
    (h : (Seq.tokenize search tree fuel text grammar).result = .ok toks) :
    JustifiedFrom search tree text (some grammar) 0 toks := by
  obtain ⟨ns, rfl, hr⟩ := (Seq.sound fuel).tokenize h
  exact hr.justified ⟨by simp, by simp [Tok.Measured.text]⟩ (.cons (.text text) .nil)

/-- A run on the heap returns justified tokens if the run on nodes that it mirrors does. -/
theorem ReturnsJustified.of_mirrors {h : Heap} {x : Traced Fault Event (TokenList × Heap)}
    {y : Seq.Prog (List Tok)} (hxy : Mirrors search tree (Holds h) x y)
    (hy : ∀ toks, y.result = .ok toks → JustifiedFrom search tree text g 0 toks) :
    ReturnsJustified search tree text g x := by
  intro list h' hx
  obtain ⟨toks, htoks, cs, hr, rfl, -⟩ := hxy.ok hx
  exact ⟨cs, hr, hy _ htoks⟩

/-- Every span of a tokenization is justified, with a grammar and with a language: a pattern of the
grammar matches there, in the text as it is searched, and the children are a tokenization of the
match by the inside grammar, justified in turn. Nothing is assumed of the search. -/
theorem tokenize_justified (search : RegexSearch) (tree : LanguageTree) (fuel : Nat) (h : Heap)
    (text : Bytes) :
    (∀ grammar, ReturnsJustified search tree text (some grammar)
      ((tokenize search tree fuel text grammar).run h)) ∧
    ∀ language, ReturnsJustified search tree text (tree.findIndex language)
      ((tokenizeLanguage search tree fuel text language).run h) := by
  refine ⟨fun grammar => ?_, fun language => ?_⟩
  · exact .of_mirrors (mirrors fuel).tokenize fun toks => Seq.tokenize_justifiedFrom
  · refine .of_mirrors (tokenizeLanguage_mirrors fuel text language) fun toks htoks => ?_
    rw [Seq.tokenizeLanguage] at htoks
    cases hfind : tree.findIndex language with
    | some grammar =>
      rw [hfind] at htoks
      obtain ⟨g, -, h⟩ := Traced.bind_result_ok.mp htoks
      exact Seq.tokenize_justifiedFrom h
    | none =>
      rw [hfind] at htoks
      cases htoks
      exact .cons (.text text) .nil

end TSubSpec.Prisma
