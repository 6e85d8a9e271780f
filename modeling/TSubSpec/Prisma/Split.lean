import TSubSpec.Prisma.Filled
import TSubSpec.Prisma.Halting

/-!
# `TSubSpec.Prisma.Split`: plain grammars, and the fold they compute

A grammar is `Plain` when its patterns are not greedy and never match the empty string. On such a
grammar the in-place algorithm is a fold: every pattern in turn splits every `Text` at its matches,
and leaves every `Syntax` alone. `highlight` is that fold, and `tokenize_eq_highlight` says that
the code computes it.

Two facts carry the proof. The nodes are never empty, so the list is never longer than the text,
and the guard on its length cannot fire. A match covers the single `Text` it was found in, so
nothing is rematched.
-/

set_option autoImplicit false

namespace TSubSpec.Prisma

open TSubSpec.Lib
open TSubSpec.Lib.Traced

/-! ### The specification -/

/-- A `Text`, unless it would be empty. -/
def textTok (s : Bytes) : List Tok := if s.isEmpty then [] else [.text s]

section

variable (search : RegexSearch) (content : Bytes → Option Nat → List Tok)

/-- The tokens of the text `t` for one pattern: the text before the first match, the `Syntax` of
the match, and the tokens of the text behind it. -/
def split (e : Entry) (p : Pattern) (t : Bytes) : List Tok :=
  match p.matchText search 0 t with
  | none => [.text t]
  | some (i, view) =>
    let after := t.drop (i + view.length)
    textTok (t.take i) ++ .syn e.token (content view p.inside) p.aliasName view.length ::
      -- An empty match at the start would leave all of `t`.
      if after.length < t.length then (if after.isEmpty then [] else split e p after) else []
termination_by t.length
decreasing_by assumption

/-- What a pattern makes of a token: a text is split at the matches, and a syntax token stays. -/
def splitTok (e : Entry) (p : Pattern) : Tok → List Tok
  | .text t => split search content e p t
  | .syn type children aliasName length => [.syn type children aliasName length]

/-- What one turn makes of the tokens. -/
def splitAll (tree : LanguageTree) (toks : List Tok) (e : Entry) : List Tok :=
  match tree.resolvePattern e.pattern with
  | none => toks
  | some p => toks.flatMap (splitTok search content e p)

/-- The fold over the patterns of a grammar, in token order and pattern order. It has no list, no
guard and no rematch. -/
def highlight (tree : LanguageTree) (g : Grammar) (text : Bytes) : List Tok :=
  g.entries.foldl (splitAll search content tree) [.text text]

end

section

variable (search : RegexSearch) (tree : LanguageTree)

open Classical in
/-- The children of a match: its text, or what tokenizing it with the inside grammar returns. Where
that does not return there are none, which no run that returns meets. -/
noncomputable def contentOf (view : Bytes) : Option Nat → List Tok
  | none => [.text view]
  | some inside => if h : ∃ toks, Returns search tree view inside toks then h.choose else []

/-- The pattern of the turn exists, is not greedy, and never matches the empty string. Greedy
patterns would take nodes back. -/
def Entry.Plain (e : Entry) : Prop :=
  ∃ p, tree.resolvePattern e.pattern = some p ∧ p.greedy = false ∧
    ∀ s i view, p.matchText search 0 s = some (i, view) → view ≠ []

/-- So do all patterns of the grammar. -/
def Plain (g : Grammar) : Prop := ∀ e ∈ g.entries, e.Plain search tree

end

variable {search : RegexSearch} {tree : LanguageTree} {text : Bytes}

/-- The tokens a text tokenizes to are determined. -/
theorem Returns.unique {grammar : Nat} {toks toks' : List Tok}
    (h : Returns search tree text grammar toks) (h' : Returns search tree text grammar toks') :
    toks = toks' := by
  obtain ⟨n, hn⟩ := h
  obtain ⟨m, hm⟩ := h'
  have hgrow : Growing Fault.outOfFuel fun fuel => Seq.tokenize search tree fuel text grammar :=
    fun fuel => (Seq.grows fuel).tokenize _ _
  have hn' : (Seq.tokenize search tree n text grammar).result ≠ .error .outOfFuel := by simp [hn]
  have hm' : (Seq.tokenize search tree m text grammar).result ≠ .error .outOfFuel := by simp [hm]
  rw [← hgrow.unique hm' hn', hm] at hn
  exact (Except.ok.inj hn).symm

/-- The content that the fold is given is what the run computes for the children of a token. -/
theorem contentOf_eq {fuel : Nat} {c : Seq.Call} {view : Bytes} {inside : Option Nat}
    {children : List Tok}
    (h : (Seq.tokenEntries search tree fuel c view inside).result = .ok children) :
    contentOf search tree view inside = children := by
  obtain ⟨ns, rfl, hr, hreturns⟩ := (Seq.sound fuel).tokenEntries h
  cases inside with
  | none =>
    rw [hr.eq_of_none]
    rfl
  | some inside =>
    have h := hreturns inside rfl
    have hex : ∃ toks, Returns search tree view inside toks := ⟨_, h⟩
    rw [contentOf, dif_pos hex]
    exact hex.choose_spec.unique h

/-- A text node has the token of its text, and an empty text has none. -/
theorem map_tok_textNode (s : Bytes) : (Seq.textNode s).map (·.tok) = textTok s := by
  unfold Seq.textNode textTok
  split <;> rfl

/-- Splitting at a match that is not empty. -/
theorem split_of_hit {content : Bytes → Option Nat → List Tok} {p : Pattern} (e : Entry) {t : Bytes}
    {i : Nat} {view : Bytes} (hit : p.matchText search 0 t = some (i, view)) (hview : view ≠ [])
    (fits : i + view.length ≤ t.length) :
    split search content e p t = textTok (t.take i) ++
      .syn e.token (content view p.inside) p.aliasName view.length ::
        (textTok (t.drop (i + view.length))).flatMap (splitTok search content e p) := by
  have hpos := List.length_pos_iff.mpr hview
  have hlt : (t.drop (i + view.length)).length < t.length := by
    rw [List.length_drop]
    omega
  rw [split, hit]
  dsimp only
  rw [if_pos hlt]
  by_cases hempty : (t.drop (i + view.length)).isEmpty = true
  · rw [if_pos hempty, textTok, textTok, if_pos hempty, List.flatMap_nil]
  · rw [if_neg hempty, textTok, textTok, if_neg hempty, List.flatMap_singleton, splitTok]

/-! ### One pattern -/

section

variable {p : Pattern} (hgreedy : p.greedy = false)
  (hne : ∀ s i view, p.matchText search 0 s = some (i, view) → view ≠ [])

include hgreedy in
/-- A search of a plain pattern stays in its `Text`, and passes over what the pattern keeps. -/
theorem Seq.inspect_plain {fuel pos : Nat} {n : Node} {ns : List Node} {l : Seq.Located} (e : Entry)
    (content : Bytes → Option Nat → List Tok)
    (h : (Seq.inspect search fuel text p n ns pos).result = .ok l) :
    l = .skip [] n ns pos ∧ splitTok search content e p n.tok = [n.tok] ∨
      ∃ value i view, n.tok = .text value ∧ p.matchText search 0 value = some (i, view) ∧
        l = .found [] pos value i view 1 ns := by
  obtain ⟨label, tok⟩ := n
  cases tok with
  | syn =>
    cases h
    exact Or.inl ⟨rfl, rfl⟩
  | text value =>
    simp only [Seq.inspect, Seq.locate, hgreedy] at h
    cases hit : p.matchText search 0 value with
    | none =>
      rw [hit] at h
      cases h
      refine Or.inl ⟨rfl, ?_⟩
      rw [splitTok, split, hit]
    | some found =>
      rw [hit] at h
      cases h
      exact Or.inr ⟨value, found.1, found.2, rfl, hit, rfl⟩

/-- A match that covers one node is not followed by a rematch. -/
theorem Seq.rematchRemoved_one {fuel before pos reach : Nat} {c : Seq.Call} {e : Entry} {syn : Node}
    {rest rest' : List Node} {r r' : Option RematchOptions}
    (h : (Seq.rematchRemoved search tree fuel c e before syn rest pos reach r 1).result
      = .ok (rest', r')) : rest' = rest ∧ r' = r := by
  cases fuel with
  | zero => simp [Seq.rematchRemoved] at h
  | succ fuel =>
    rw [Seq.rematchRemoved, if_neg (Nat.lt_irrefl 1)] at h
    cases h
    exact ⟨rfl, rfl⟩

include hgreedy hne in
/-- The loop over the nodes splits every `Text`, when there is room for the nodes. -/
theorem Seq.matchNodes_plain {c : Seq.Call} {e : Entry} : ∀ {fuel before pos : Nat}
    {ns ns' : List Node} {flow : Flow} {r' : Option RematchOptions}, Filled ns →
    before + width ns ≤ c.text.length →
    (Seq.matchNodes search tree fuel c e p before ns pos none).result = .ok (flow, ns', r') →
    flow = .finished ∧ r' = none ∧ Filled ns' ∧
      ns'.map (·.tok) = (ns.map (·.tok)).flatMap (splitTok search (contentOf search tree) e p)
  | 0, _, _, _, _, _, _, _, _, h => by simp [Seq.matchNodes] at h
  | fuel + 1, before, pos, ns, ns', flow, r', hfill, hroom, h => by
    have hturn := Seq.matchNodes_ok_iff.mp h
    clear h
    cases hturn with
    | done => exact ⟨rfl, rfl, hfill, rfl⟩
    | reached hreached => cases hreached
    | aborted hr hguard =>
      have := hfill.length_le
      omega
    | stop hr hg hinspect =>
      rcases Seq.inspect_plain hgreedy e (contentOf search tree) hinspect with ⟨hl, -⟩ | hfound
      · cases hl
      · obtain ⟨value, i, view, htok, hit, hl⟩ := hfound
        cases hl
    | @skip n ns _ _ kept rest nodes current pos' _ _ hr hg hinspect next =>
      rcases Seq.inspect_plain hgreedy e (contentOf search tree) hinspect with ⟨hl, hkeep⟩ | hfound
      · cases hl
        have hn := hfill n List.mem_cons_self
        have hns : Filled ns := fun n hn => hfill n (List.mem_cons_of_mem _ hn)
        rw [width_cons] at hroom
        obtain ⟨hflow, hr', hnodes, htoks⟩ := Seq.matchNodes_plain hns (by simp; omega) next
        refine ⟨hflow, hr', ?_, ?_⟩
        · exact List.forall_mem_cons.mpr ⟨hn, hnodes⟩
        · rw [List.nil_append, List.map_cons, List.map_cons, List.flatMap_cons, hkeep, htoks]
          rfl
      · obtain ⟨value, i, view, htok, hit, hl⟩ := hfound
        cases hl
    | @found n ns _ _ kept rest rest' nodes pos' i removeCount str view b a children r₁ _ _ hr hg
        hinspect cut entries rematched next =>
      rcases Seq.inspect_plain hgreedy e (contentOf search tree) hinspect with ⟨hl, -⟩ | hfound
      · cases hl
      · obtain ⟨_, _, _, htok, hit, hl⟩ := hfound
        cases hl
        obtain ⟨hfits, rfl, rfl⟩ := Seq.cutOut_ok cut
        obtain ⟨rfl, rfl⟩ := Seq.rematchRemoved_one rematched
        -- The match takes at least one character, so what is left still has room.
        have hview := hne _ _ _ hit
        have hpos := List.length_pos_iff.mpr hview
        have hns : Filled ns := fun n hn => hfill n (List.mem_cons_of_mem _ hn)
        have hbefore : (Seq.textNode (str.take i)).length ≤ i := by
          refine Nat.le_trans (filled_textNode _).length_le ?_
          rw [width_textNode, List.length_take]
          exact Nat.min_le_left _ _
        have hafter : Filled (Seq.textNode (str.drop (i + view.length)) ++ ns) :=
          List.forall_mem_append.mpr ⟨filled_textNode _, hns⟩
        rw [width_cons, htok, Tok.length_text] at hroom
        obtain ⟨hflow, hr', hnodes, htoks⟩ := Seq.matchNodes_plain hafter (by
          rw [List.nil_append, width_append, width_textNode, List.length_drop]
          omega) next
        refine ⟨hflow, hr', ?_, ?_⟩
        · exact List.forall_mem_append.mpr ⟨filled_textNode _, List.forall_mem_cons.mpr
            ⟨hpos, hnodes⟩⟩
        · rw [List.map_cons, List.flatMap_cons, htok, splitTok, split_of_hit e hit hview hfits,
            contentOf_eq entries]
          simp only [List.nil_append, List.map_append, List.map_cons, htoks, List.flatMap_append,
            map_tok_textNode, List.append_assoc, List.cons_append]

end

/-! ### All patterns -/

/-- The turns over plain patterns are the fold. -/
theorem Seq.matchPatterns_plain {c : Seq.Call} {g : Grammar}
    (hg : tree.resolveGrammar c.grammar = some g) (hplain : Plain search tree g)
    (hpos : c.startPos = 0) (hbefore : c.before = 0) : ∀ {fuel : Nat} {es : List Entry}
    {ns ns' : List Node} {r' : Option RematchOptions}, (∀ e ∈ es, e ∈ g.entries) →
    width ns = c.text.length → Filled ns →
    (Seq.matchPatterns search tree fuel c es ns none).result = .ok (ns', r') →
    ns'.map (·.tok) = es.foldl (splitAll search (contentOf search tree) tree) (ns.map (·.tok))
  | 0, _, _, _, _, _, _, _, h => by simp [Seq.matchPatterns] at h
  | fuel + 1, es, ns, ns', r', hes, hw, hfill, h => by
    have hroom : c.before + width ns ≤ c.text.length := by rw [hbefore, hw, Nat.zero_add]
    cases Seq.matchPatterns_ok h with
    | done => rfl
    | cause hcause => cases hcause
    | @returned e es p _ _ _ _ _ resolved nodes =>
      obtain ⟨p', hp', hgreedy, hne⟩ := hplain e (hes e List.mem_cons_self)
      cases resolved.symm.trans hp'
      cases (Seq.matchNodes_plain hgreedy hne hfill hroom nodes).1
    | @finished e es p _ ns₁ _ _ _ _ _ resolved nodes next =>
      have he := hes e List.mem_cons_self
      obtain ⟨p', hp', hgreedy, hne⟩ := hplain e he
      cases resolved.symm.trans hp'
      obtain ⟨-, rfl, hfill₁, htoks⟩ := Seq.matchNodes_plain hgreedy hne hfill hroom nodes
      have hout := (Seq.sound fuel).matchNodes [] hg he resolved hpos hw nodes
      have hrec := Seq.matchPatterns_plain hg hplain hpos hbefore
        (fun e he => hes e (List.mem_cons_of_mem _ he)) (hout.width_eq.trans hw) hfill₁ next
      rw [hrec, List.nil_append, htoks, List.foldl_cons, splitAll, resolved]

/-- On a plain grammar a run that returns gives the fold over the patterns. -/
theorem Seq.tokenize_plain {fuel grammar : Nat} {g : Grammar} {toks : List Tok}
    (hg : tree.resolveGrammar grammar = some g) (hplain : Plain search tree g) (htext : text ≠ [])
    (h : (Seq.tokenize search tree fuel text grammar).result = .ok toks) :
    toks = highlight search (contentOf search tree) tree g text := by
  match fuel with
  | 0 => simp [Seq.tokenize] at h
  | 1 =>
    rw [Seq.tokenize, Seq.matchGrammar] at h
    cases h
  | fuel + 2 =>
    rw [Seq.tokenize, Seq.matchGrammar, hg] at h
    obtain ⟨⟨ns, r⟩, hns, h⟩ := Traced.bind_result_ok.mp h
    obtain ⟨g', hg', hns⟩ := Traced.bind_result_ok.mp hns
    cases hg'
    cases h
    exact Seq.matchPatterns_plain (c := ⟨text, grammar, 0, 0⟩) hg hplain rfl rfl (fun _ he => he)
      (by simp) (by simpa [Filled] using List.length_pos_iff.mpr htext) hns

/-! ### No rematch, and no abort -/

/-- No match of a plain grammar is empty. -/
theorem Plain.fills {g : Grammar} (hplain : Plain search tree g) :
    ∀ e ∈ g.entries, ∀ p, tree.resolvePattern e.pattern = some p → p.Fills search := by
  intro e he p hp
  obtain ⟨p', hp', hgreedy, hne⟩ := hplain e he
  obtain rfl : p = p' := Option.some.inj (hp.symm.trans hp')
  intro text pos seg ys str i view hfound
  cases hfound with
  | plain greedy hit => exact hne _ _ _ hit
  | whole greedy hit => rw [hgreedy] at greedy; cases greedy

/-- The guard on the list length does not fire. -/
theorem Event.Sound.not_aborted {s : Snapshot} {g : Grammar}
    (hg : tree.resolveGrammar s.grammar = some g)
    (hplain : Plain search tree g) (htext : s.text ≠ []) :
    ¬ Event.Sound search tree (.aborted s) := by
  rintro ⟨cs, hs, hlt⟩
  obtain ⟨hi, ns, hr, htoks⟩ := hs.reached
  have hfill : Filled ns :=
    hr.filled hg hplain.fills (by simpa [Filled] using List.length_pos_iff.mpr htext)
  have hle := hfill.length_le
  have hlen := congrArg List.length htoks
  rw [hr.width_eq] at hle
  simp only [List.length_map] at hlen
  simp only [width_cons, width_nil, Tok.length_text] at hle
  omega

/-- No call waits for another. -/
theorem Snapshot.Sound.not_waiting {s : Snapshot} {cs : List Cell} {g : Grammar}
    (hs : s.Sound search tree cs) (hg : tree.resolveGrammar s.grammar = some g)
    (hplain : Plain search tree g) : s.frames.length ≤ 1 := by
  by_contra hlt
  obtain ⟨g', hg', e, he, p, hp, hgreedy⟩ := hs.waiting (Nat.lt_of_not_le hlt)
  obtain rfl : g = g' := Option.some.inj (hg.symm.trans hg')
  obtain ⟨p', hp', hnot, -⟩ := hplain e he
  obtain rfl : p = p' := Option.some.inj (hp.symm.trans hp')
  rw [hgreedy] at hnot
  cases hnot

/-! ### The list the code returns -/

/-- On a plain grammar tokenizing computes the fold. No call of `matchGrammar` with the grammar
waits for another, and the guard on the list length does not fire. If the texts handed to inside
grammars are founded, the engine keeps its contract and the tree holds no bad index, then the run
does return. -/
theorem tokenize_eq_highlight {grammar : Nat} {g : Grammar}
    (hg : tree.resolveGrammar grammar = some g) (hplain : Plain search tree g) (htext : text ≠ [])
    (h : Heap) :
    (∀ fuel list h', ((tokenize search tree fuel text grammar).run h).result = .ok (list, h') →
      ∃ cs, Rep h' list cs ∧
        cs.map (·.tok) = highlight search (contentOf search tree) tree g text) ∧
    (∀ fuel s, .entered s ∈ ((tokenize search tree fuel text grammar).run h).log →
      s.grammar = grammar → s.frames.length ≤ 1) ∧
    (∀ fuel s, .aborted s ∈ ((tokenize search tree fuel text grammar).run h).log →
      s.grammar = grammar → s.text = []) ∧
    (PrismContract search tree → tree.Indexed →
      InsideFounded (fun fuel => (tokenize search tree fuel text grammar).run h) →
      ∃ m, ∀ fuel, m ≤ fuel →
        ∃ a, ((tokenize search tree fuel text grammar).run h).result = .ok a) := by
  -- The sequence takes the same steps, and on it the non-greedy patterns are a fold.
  have hlock fuel : Mirrors search tree (Holds h) ((tokenize search tree fuel text grammar).run h)
      (Seq.tokenize search tree fuel text grammar) := (mirrors fuel).tokenize
  refine ⟨fun fuel list h' hr => ?_, fun fuel s hs hgr => ?_, fun fuel s hs hgr => ?_,
    fun hc hi hf => ?_⟩
  · obtain ⟨toks, htoks, cs, hrep, rfl, -⟩ := (hlock fuel).ok hr
    exact ⟨cs, hrep, Seq.tokenize_plain hg hplain htext htoks⟩
  · obtain ⟨cs, hsound⟩ := (hlock fuel).events _ hs
    exact hsound.not_waiting (hgr ▸ hg) hplain
  · by_contra hne
    exact Event.Sound.not_aborted (hgr ▸ hg) hplain hne ((hlock fuel).events _ hs)
  · obtain ⟨m, hm⟩ := Ends.of_mirrors hlock (fun rank => Seq.tokenize_terminates rank _ rfl)
      (fun fuel => (Seq.failsTolerably fuel).tokenize fun _ => ⟨g, hg⟩) hf
    refine ⟨m, fun fuel hfuel => ?_⟩
    rcases hm fuel hfuel with hok | ⟨-, hbroken⟩ | ⟨-, hbad⟩
    · exact hok
    · exact (hbroken hc).elim
    · exact (hbad hi).elim

/-- The grammar of the quoted strings is plain. -/
theorem plain_quote {g : Grammar} (hg : quoteTree.resolveGrammar 1 = some g) :
    Plain literalSearch quoteTree g := by
  cases hg
  intro e he
  have hsource : ∀ i ∈ [0, 2], ∃ p, quoteTree.resolvePattern i = some p ∧ p.greedy = false ∧
      p.source ≠ [] := by
    intro i hi
    simp only [List.mem_cons, List.not_mem_nil, or_false] at hi
    rcases hi with rfl | rfl <;> exact ⟨_, rfl, rfl, by decide⟩
  obtain ⟨p, hp, hgreedy, hne⟩ := hsource e.pattern (by
    revert e
    decide)
  exact ⟨p, hp, hgreedy, fun s i view h => p.ne_nil_of_literal hne h⟩

/-- A quoted string is tokenized to the fold. -/
theorem tokenize_eq_highlight_quote : ∃ g list h cs, quoteTree.resolveGrammar 1 = some g ∧
    Plain literalSearch quoteTree g ∧ ascii "'if'" ≠ [] ∧
    ((tokenize literalSearch quoteTree 30 (ascii "'if'") 1).run Heap.empty).result = .ok (list, h) ∧
    Rep h list cs ∧ cs.map (·.tok)
      = highlight literalSearch (contentOf literalSearch quoteTree) quoteTree g (ascii "'if'") := by
  have hplain := plain_quote rfl
  obtain ⟨⟨list, h⟩, hr⟩ := exists_ok (r := ((tokenize literalSearch quoteTree 30 (ascii "'if'")
    1).run Heap.empty).result) (by decide +kernel)
  obtain ⟨cs, hrep, htoks⟩ :=
    (tokenize_eq_highlight rfl hplain (by decide) Heap.empty).1 30 list h hr
  exact ⟨_, list, h, cs, rfl, hplain, by decide, hr, hrep, htoks⟩

end TSubSpec.Prisma
