import Mathlib.Data.List.Chain
import TSubSpec.Prisma.Sequence

/-!
# `TSubSpec.Prisma.Rewriting`: what the tokenizer does to a sequence

`Rewrites text g lo hi ns ns'` says what the tokenizer is for: `ns'` comes from `ns` by
replacing runs of nodes between the offsets `lo` and `hi`. A run starts with a `Text`. A search
of a pattern of the grammar `g` found a match in it. The run gives way to the text before the
match, a `Syntax` with the tokens of the match as children, and the text after the match.
The order of the replacements, the guard on the list length and the rematching are left open.

`Seq.sound` proves that the algorithm does nothing else. The invariants of the token list are then
inductions over `Rewrites`: `Rewrites.width_eq` and `Rewrites.separated` below, and more of them in
the modules that import this one.
-/

set_option autoImplicit false

namespace TSubSpec.Prisma

open TSubSpec.Lib

/-- The run of nodes a greedy match up to `stop` covers: the nodes from the offset `p` on,
until the first `Syntax` at or after `stop`. -/
def affected (stop : Nat) : Nat → List Node → List Node
  | _, [] => []
  | p, k :: ks =>
    if p < stop || !k.tok.isSyntax then k :: affected stop (p + k.tok.length) ks else []

/-- A search that finds a match in the run `seg` at the offset `pos`, before the nodes `ys`. The
match is `view`, at `i` in the text `str` of the run. -/
inductive Found (search : RegexSearch) (p : Pattern) (text : Bytes) (pos : Nat) :
    List Node → List Node → Bytes → Nat → Bytes → Prop
  /-- The pattern matched inside the `Text` node. -/
  | plain {l : Option TokenListPtr} {value : Bytes} {ys : List Node} {i : Nat} {view : Bytes}
      (greedy : p.greedy = false)
      (hit : p.matchText search 0 value = some (i, view)) :
      Found search p text pos [⟨l, .text value⟩] ys value i view
  /-- The pattern matched in the whole text from the offset `q` on, starting inside the `Text`
  node. The run is what the match covers. -/
  | whole {l : Option TokenListPtr} {value : Bytes} {ns seg ys : List Node} {q start : Nat}
      {view : Bytes} (greedy : p.greedy = true)
      (hit : p.matchText search q text = some (start, view))
      (pos_le : pos ≤ start) (lt : start < pos + value.length) (lt_text : start < text.length)
      (run : seg = affected (start + view.length) pos (⟨l, .text value⟩ :: ns))
      (split : seg ++ ys = ⟨l, .text value⟩ :: ns)
      (inside : pos + width seg ≤ text.length) :
      Found search p text pos seg ys ((text.drop pos).take (width seg)) (start - pos) view

/-- What replaces a run: the text before the match, its `Syntax`, the text after it. -/
def replacement (e : Entry) (p : Pattern) (str : Bytes) (i : Nat) (view : Bytes)
    (children : List Node) : List Node :=
  Seq.textNode (str.take i) ++
    (⟨none, .syn e.token (children.map (·.tok)) p.aliasName view.length⟩ ::
      Seq.textNode (str.drop (i + view.length)))

section

variable (search : RegexSearch) (tree : LanguageTree)

/-- Some run of `tokenize` returns these tokens. More fuel does not change what a run returns, so
there is one such list at most. -/
def Returns (text : Bytes) (grammar : Nat) (toks : List Tok) : Prop :=
  ∃ fuel, (Seq.tokenize search tree fuel text grammar).result = .ok toks

/-- A place where the grammar allows a replacement: between `xs` and `ys`, for the pattern `p`
of the turn `e`. A greedy search began at one of the nodes in front. -/
structure Site (text : Bytes) (g : Option Nat) (lo hi : Nat) (xs seg ys : List Node) (e : Entry)
    (p : Pattern) (str : Bytes) (i : Nat) (view : Bytes) : Prop where
  entry : ∃ grammar gr, g = some grammar ∧ tree.resolveGrammar grammar = some gr ∧
    e ∈ gr.entries
  pattern : tree.resolvePattern e.pattern = some p
  found : Found search p text (width xs) seg ys str i view
  searched : p.greedy = true → ∃ front back, xs = front ++ back ∧
    p.matchText search (width front) text = some (width xs + i, view)
  fits : i + view.length ≤ str.length
  lo_le : lo ≤ width xs
  le_hi : width xs + str.length ≤ hi

/-- `ns'` comes from `ns` by replacements between `lo` and `hi`. The grammar `none` allows
none, so the content of a match without an inside grammar stays a single `Text`. -/
inductive Rewrites : Bytes → Option Nat → Nat → Nat → List Node → List Node → Prop
  | refl {text : Bytes} {g : Option Nat} {lo hi : Nat} {ns : List Node} :
      Rewrites text g lo hi ns ns
  | step {text : Bytes} {g : Option Nat} {lo hi : Nat} {ns xs seg ys cs : List Node} {e : Entry}
      {p : Pattern} {str : Bytes} {i : Nat} {view : Bytes}
      (prior : Rewrites text g lo hi ns (xs ++ seg ++ ys))
      (site : Site search tree text g lo hi xs seg ys e p str i view)
      (returns : ∀ inside, p.inside = some inside →
        Returns search tree view inside (cs.map (·.tok)))
      (children : Rewrites view p.inside 0 view.length [⟨none, .text view⟩] cs) :
      Rewrites text g lo hi ns (xs ++ replacement e p str i view cs ++ ys)

end

variable {search : RegexSearch} {tree : LanguageTree}

/-! ### Replacements -/

/-- What follows the run of a greedy match is a `Syntax`, or nothing. -/
theorem affected_stops (stop : Nat) : ∀ (p : Nat) (ns ys : List Node),
    affected stop p ns ++ ys = ns → ∀ k ∈ ys.head?, k.tok.isSyntax = true
  | _, [], ys, h => by
    rw [affected, List.nil_append] at h
    simp [h]
  | p, k :: ks, ys, h => by
    rw [affected] at h
    split at h
    · exact affected_stops stop _ ks ys (List.cons.inj h).2
    · rename_i hk
      rw [List.nil_append] at h
      intro k' hk'
      obtain rfl : k = k' := by simpa [h] using hk'
      simp only [Bool.or_eq_true, decide_eq_true_eq, Bool.not_eq_true', not_or,
        Bool.not_eq_false] at hk
      exact hk.2

/-- A text node is as wide as its text, also where it is left out. -/
theorem width_textNode (s : Bytes) : width (Seq.textNode s) = s.length := by
  unfold Seq.textNode
  split
  · rename_i h
    simp [List.isEmpty_iff.mp h]
  · simp

variable {text : Bytes} {g : Option Nat} {lo hi i pos : Nat} {xs seg ys ns ns' cs : List Node}
  {e : Entry} {p : Pattern} {str view : Bytes}

/-- The text of the run is as long as the run. -/
theorem Found.length_eq (h : Found search p text pos seg ys str i view) :
    str.length = width seg := by
  cases h with
  | plain greedy hit => simp
  | whole greedy hit pos_le lt lt_text run split inside =>
    rw [List.length_take, List.length_drop]
    omega

/-- The run starts with a `Text`. -/
theorem Found.starts (h : Found search p text pos seg ys str i view) :
    ∃ l value tl, seg = ⟨l, .text value⟩ :: tl := by
  cases h with
  | plain greedy hit => exact ⟨_, _, [], rfl⟩
  | whole greedy hit pos_le lt lt_text run split inside =>
    rw [affected, if_pos (by simp)] at run
    exact ⟨_, _, _, run⟩

/-- Only a greedy match covers more than one node. -/
theorem Found.greedy_of_length (h : Found search p text pos seg ys str i view)
    (hlt : 1 < seg.length) : p.greedy = true := by
  cases h with
  | plain greedy hit => simp at hlt
  | whole greedy => exact greedy

/-- What is put in for a match is as wide as the text it replaces, if the match lies in the text. -/
theorem width_replacement (h : i + view.length ≤ str.length) :
    width (replacement e p str i view cs) = str.length := by
  simp only [replacement, width_append, width_cons, width_textNode, Tok.length_syn,
    List.length_take, List.length_drop]
  omega

/-- At a place that a rewriting step may change, the replacement is as wide as what it replaces. -/
theorem Site.width_eq (h : Site search tree text g lo hi xs seg ys e p str i view) :
    width (replacement e p str i view cs) = width seg := by
  rw [width_replacement h.fits, h.found.length_eq]

/-- A place stays one for wider bounds. -/
theorem Site.mono {lo' hi' : Nat} (h : Site search tree text g lo hi xs seg ys e p str i view)
    (hlo : lo' ≤ lo) (hhi : hi ≤ hi') :
    Site search tree text g lo' hi' xs seg ys e p str i view :=
  { h with lo_le := Nat.le_trans hlo h.lo_le, le_hi := Nat.le_trans h.le_hi hhi }

/-- Rewriting inside a range is rewriting inside a larger one. -/
theorem Rewrites.mono {lo' hi' : Nat} (h : Rewrites search tree text g lo hi ns ns')
    (hlo : lo' ≤ lo) (hhi : hi ≤ hi') : Rewrites search tree text g lo' hi' ns ns' := by
  induction h with
  | refl => exact .refl
  | step prior site returns children ih =>
    exact .step (ih hlo hhi) (site.mono hlo hhi) returns children

/-- Rewriting twice is rewriting. -/
theorem Rewrites.trans {ns'' : List Node} (h : Rewrites search tree text g lo hi ns ns')
    (h' : Rewrites search tree text g lo hi ns' ns'') :
    Rewrites search tree text g lo hi ns ns'' := by
  induction h' with
  | refl => exact h
  | step prior site returns children ih => exact .step (ih h) site returns children

/-- Replacements keep the width. -/
theorem Rewrites.width_eq (h : Rewrites search tree text g lo hi ns ns') :
    width ns' = width ns := by
  induction h with
  | refl => rfl
  | step prior site returns children ih =>
    rw [← ih]
    simp only [width_append, site.width_eq]

/-- Without a grammar nothing is rewritten. -/
theorem Rewrites.eq_of_none (h : Rewrites search tree text none lo hi ns ns') : ns' = ns := by
  generalize hg : (none : Option Nat) = g at h
  cases h with
  | refl => rfl
  | step prior site returns children =>
    obtain ⟨grammar, gr, he, -⟩ := site.entry
    rw [← hg] at he
    cases he

/-! ### Labels take no part -/

/-- The width of nodes depends on their tokens only. -/
theorem width_congr {ms : List Node} (h : ms.map (·.tok) = ns.map (·.tok)) :
    width ms = width ns := by
  have hsum : ∀ l : List Node, width l = ((l.map (·.tok)).map Tok.length).sum := fun l => by
    rw [width, List.map_map]
    rfl
  rw [hsum, hsum, h]

/-- The nodes that a match covers are the first of those that are left. -/
theorem prefix_of_affected (stop : Nat) : ∀ (p : Nat) (ns : List Node), affected stop p ns <+: ns
  | _, [] => List.prefix_rfl
  | p, k :: ks => by
    rw [affected]
    split
    · exact List.cons_prefix_cons.mpr ⟨rfl, prefix_of_affected stop _ ks⟩
    · exact List.nil_prefix

/-- How many nodes a match covers depends on their tokens only. -/
theorem affected_length_congr {stop : Nat} : ∀ {pos : Nat} {ms ns : List Node},
    ms.map (·.tok) = ns.map (·.tok) →
      (affected stop pos ms).length = (affected stop pos ns).length
  | _, [], [], _ => rfl
  | pos, m :: ms, n :: ns, h => by
    obtain ⟨htok, h⟩ := List.cons.inj h
    rw [affected, affected, show m.tok = n.tok from htok]
    split
    · rw [List.length_cons, List.length_cons, affected_length_congr h]
    · rfl

/-- Where a search finds a match does not depend on the labels. -/
theorem Found.congr {seg' ys' : List Node} (h : Found search p text pos seg ys str i view)
    (hseg : seg'.map (·.tok) = seg.map (·.tok)) (hys : ys'.map (·.tok) = ys.map (·.tok)) :
    Found search p text pos seg' ys' str i view := by
  cases h with
  | plain greedy hit =>
    obtain ⟨⟨l, t⟩, rfl, rfl⟩ := List.map_eq_singleton_iff.mp hseg
    exact .plain greedy hit
  | @whole l value ns seg ys q start view greedy hit pos_le lt lt_text run split inside =>
    have hns : (seg' ++ ys').map (·.tok) = .text value :: ns.map (·.tok) := by
      rw [List.map_append, hseg, hys, ← List.map_append, split, List.map_cons]
    obtain ⟨⟨l', t⟩, ns', hsplit, rfl, hns'⟩ := List.map_eq_cons_iff.mp hns
    rw [← width_congr hseg] at inside ⊢
    refine .whole greedy hit pos_le lt lt_text ?_ hsplit inside
    -- Both runs are the first nodes of the sequence, and equally many.
    have hlen : seg'.length =
        (affected (start + view.length) pos (⟨l', .text value⟩ :: ns')).length := by
      have h := congrArg List.length hseg
      rw [List.length_map, List.length_map, run] at h
      rw [h]
      exact affected_length_congr (by simp [hns'])
    refine List.IsPrefix.eq_of_length ?_ hlen
    exact List.prefix_of_prefix_length_le ⟨ys', hsplit⟩ (prefix_of_affected _ _ _)
      (Nat.le_of_eq hlen)

/-- Rewriting does not depend on the labels. -/
theorem Rewrites.relabel {ms : List Node} (h : Rewrites search tree text g lo hi ns ns')
    (hms : ms.map (·.tok) = ns.map (·.tok)) :
    ∃ ms', Rewrites search tree text g lo hi ms ms' ∧ ms'.map (·.tok) = ns'.map (·.tok) := by
  induction h with
  | refl => exact ⟨ms, .refl, hms⟩
  | @step text g lo hi ns xs seg ys cs e p str i view prior site returns children ih =>
    obtain ⟨ms', hr, heq⟩ := ih hms
    rw [List.map_append, List.map_append] at heq
    obtain ⟨l, ys', rfl, heq, hys⟩ := List.map_eq_append_iff.mp heq
    obtain ⟨xs', seg', rfl, hxs, hseg⟩ := List.map_eq_append_iff.mp heq
    have hw := width_congr hxs
    -- The positions are those of the same widths, so the site is found again.
    have hsite : Site search tree text g lo hi xs' seg' ys' e p str i view :=
      { site with
        found := hw ▸ site.found.congr hseg hys
        searched := fun hgreedy => by
          obtain ⟨front, back, rfl, hit⟩ := site.searched hgreedy
          obtain ⟨front', back', rfl, hfront, -⟩ :=
            List.map_eq_append_iff.mp (hxs.trans List.map_append)
          exact ⟨front', back', rfl, hw ▸ width_congr hfront ▸ hit⟩
        lo_le := hw ▸ site.lo_le
        le_hi := hw ▸ site.le_hi }
    exact ⟨_, .step hr hsite returns children, by simp [hxs, hys]⟩

/-! ### No two adjacent `Text` nodes -/

/-- No two adjacent nodes are both a `Text`. The algorithm never splits a text without a syntax node
between. -/
def Separated (ns : List Node) : Prop :=
  ns.IsChain fun a b => a.tok.isSyntax = true ∨ b.tok.isSyntax = true

/-- Nodes are separated if no two texts are next to each other, which is a property of their
tokens. -/
theorem separated_iff : Separated ns ↔
    (ns.map (·.tok)).IsChain fun a b => a.isSyntax = true ∨ b.isSyntax = true := by
  rw [List.isChain_map]
  rfl

/-- One node is separated. -/
theorem Separated.singleton (n : Node) : Separated [n] := List.IsChain.singleton n

/-- A `Text` node, or none, between nodes that are no `Text` nodes. -/
theorem separated_textNode_append {s : Bytes} {ns : List Node} (h : Separated ns)
    (hs : ∀ n ∈ ns.head?, n.tok.isSyntax = true) : Separated (Seq.textNode s ++ ns) := by
  unfold Seq.textNode
  split
  · exact h
  · exact List.isChain_cons.mpr ⟨fun n hn => Or.inr (hs n hn), h⟩

/-- What is put in for a match is separated from what follows, if that begins with a syntax node. -/
theorem separated_replacement (hys : Separated ys)
    (hs : ∀ n ∈ ys.head?, n.tok.isSyntax = true) :
    Separated (replacement e p str i view cs ++ ys) := by
  rw [replacement, List.append_assoc, List.cons_append]
  refine separated_textNode_append (List.isChain_cons.mpr ⟨fun n _ => Or.inl rfl, ?_⟩) ?_
  · exact separated_textNode_append hys hs
  · simp

/-- What follows the run is a `Syntax`, or nothing: the run ends there, or it is a lone `Text`. -/
theorem Found.stops (h : Found search p text pos seg ys str i view) (hsep : Separated (seg ++ ys)) :
    ∀ n ∈ ys.head?, n.tok.isSyntax = true := by
  cases h with
  | plain greedy hit =>
    intro n hn
    rcases (List.isChain_cons.mp hsep).1 n hn with h | h
    · cases h
    · exact h
  | whole greedy hit pos_le lt lt_text run split inside =>
    exact affected_stops _ _ _ ys (run ▸ split)

/-- A replacement in a separated list leaves a separated list. -/
theorem Found.separated (e : Entry) (cs : List Node)
    (h : Found search p text pos seg ys str i view) (hsep : Separated (xs ++ seg ++ ys)) :
    Separated (xs ++ replacement e p str i view cs ++ ys) := by
  obtain ⟨l, value, tl, hseg⟩ := h.starts
  rw [Separated, List.append_assoc] at hsep
  obtain ⟨hxs, hsy, hlast⟩ := List.isChain_append.mp hsep
  obtain ⟨-, hys, -⟩ := List.isChain_append.mp hsy
  rw [Separated, List.append_assoc, List.isChain_append]
  refine ⟨hxs, separated_replacement hys (h.stops hsy), fun a ha b _ => Or.inl ?_⟩
  -- The node before the run is a `Syntax`, because the run starts with a `Text`.
  rcases hlast a ha ⟨l, .text value⟩ (by simp [hseg]) with h | h
  · exact h
  · cases h

/-- Replacements keep the list separated. -/
theorem Rewrites.separated (h : Rewrites search tree text g lo hi ns ns')
    (hsep : Separated ns) : Separated ns' := by
  induction h with
  | refl => exact hsep
  | step prior site returns children ih => exact Found.separated _ _ site.found (ih hsep)

/-! ### Tokens the algorithm can come to -/

/-- The algorithm can come to the tokens `toks` from the text: by rewriting steps inside of the
whole range. -/
def Reached (search : RegexSearch) (tree : LanguageTree) (text : Bytes) (grammar : Nat)
    (toks : List Tok) : Prop :=
  ∃ hi ns, Rewrites search tree text (some grammar) 0 hi [⟨none, .text text⟩] ns ∧
    ns.map (·.tok) = toks

namespace Reached

variable {grammar : Nat} {toks : List Tok}

/-- The call begins with its whole text as one node. -/
theorem start (search : RegexSearch) (tree : LanguageTree) (text : Bytes) (grammar : Nat) :
    Reached search tree text grammar [.text text] :=
  ⟨0, _, .refl, rfl⟩

/-- From tokens the algorithm can come to, it comes to what they are rewritten to. -/
theorem rewrites (h : Reached search tree text grammar (ns.map (·.tok)))
    (hr : Rewrites search tree text (some grammar) lo hi ns ns') :
    Reached search tree text grammar (ns'.map (·.tok)) := by
  obtain ⟨hi', ms, hms, htoks⟩ := h
  obtain ⟨ms', hr', htoks'⟩ := hr.relabel htoks
  exact ⟨max hi' hi, ms', (hms.mono (Nat.le_refl _) (Nat.le_max_left _ _)).trans
    (hr'.mono (Nat.zero_le _) (Nat.le_max_right _ _)), htoks'⟩

/-- They cover the text. -/
theorem width_eq (h : Reached search tree text grammar (ns.map (·.tok))) :
    width ns = text.length := by
  obtain ⟨hi, ms, hms, htoks⟩ := h
  rw [← width_congr htoks, hms.width_eq]
  simp

/-- No two neighbours are both a `Text`. -/
theorem separated (h : Reached search tree text grammar toks) :
    toks.IsChain fun a b => a.isSyntax = true ∨ b.isSyntax = true := by
  obtain ⟨hi, ms, hms, rfl⟩ := h
  exact separated_iff.mp (hms.separated (Separated.singleton _))

end Reached

end TSubSpec.Prisma
