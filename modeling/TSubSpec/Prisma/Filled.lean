import TSubSpec.Prisma.Rewriting

/-!
# `TSubSpec.Prisma.Filled`: nodes that are not empty

`Filled` nodes cover at least one character each, so there are at most as many of them as
characters (`Filled.length_le`). Rewriting keeps them filled when no match of the grammar is empty
(`Rewrites.filled`).

A `Text` is never empty, whatever the matches are, because the tokenizer only adds a `Text` for a
part of the text that is not (`Rewrites.textsFilled`). The exception is the text that is empty
itself.
-/

set_option autoImplicit false

namespace TSubSpec.Prisma

open TSubSpec.Lib

/-- No node is empty. A list of such nodes is not longer than its text, which the guard relies
on. -/
def Filled (ns : List Node) : Prop := ∀ n ∈ ns, 0 < n.tok.length

/-- No `Text` is empty. -/
def TextsFilled (ns : List Node) : Prop := ∀ n ∈ ns, n.tok.isSyntax = false → 0 < n.tok.length

/-- No match of the pattern is empty, wherever the loop body finds one. -/
def Pattern.Fills (search : RegexSearch) (p : Pattern) : Prop :=
  ∀ {text : Bytes} {pos : Nat} {seg ys : List Node} {str : Bytes} {i : Nat} {view : Bytes},
    Found search p text pos seg ys str i view → view ≠ []

variable {search : RegexSearch} {tree : LanguageTree} {text : Bytes} {lo hi : Nat}
  {ns ns' : List Node}

/-- A list without empty nodes has at most as many nodes as its text has octets. This bounds the
loops over the nodes. -/
theorem Filled.length_le (h : Filled ns) : ns.length ≤ width ns := by
  induction ns with
  | nil => exact Nat.zero_le _
  | cons n ns ih =>
    have hn := h n List.mem_cons_self
    have hns := ih fun n hn => h n (List.mem_cons_of_mem _ hn)
    rw [List.length_cons, width_cons]
    omega

/-- A text node is left out for an empty text, so it is not empty. -/
theorem filled_textNode (s : Bytes) : Filled (Seq.textNode s) := by
  unfold Seq.textNode
  split
  · intro n hn
    cases hn
  · rename_i hs
    intro n hn
    rw [List.mem_singleton.mp hn]
    exact List.length_pos_iff.mpr fun h => hs (by simp [h])

/-- If no node is empty, no text node is. -/
theorem Filled.textsFilled (h : Filled ns) : TextsFilled ns := fun n hn _ => h n hn

/-- A pattern that never returns the empty range has no empty match. -/
theorem Pattern.fills {p : Pattern}
    (h : ∀ pos s i view, p.matchText search pos s = some (i, view) → view ≠ []) :
    p.Fills search := by
  intro text pos seg ys str i view hfound
  cases hfound with
  | plain greedy hit => exact h _ _ _ _ hit
  | whole greedy hit => exact h _ _ _ _ hit

/-- Replacements keep the nodes filled, when no match of the grammar is empty. -/
theorem Rewrites.filled {grammar : Nat} {g : Grammar}
    (hg : tree.resolveGrammar grammar = some g)
    (hfills : ∀ e ∈ g.entries, ∀ p, tree.resolvePattern e.pattern = some p → p.Fills search)
    (h : Rewrites search tree text (some grammar) lo hi ns ns') (hns : Filled ns) :
    Filled ns' := by
  generalize ho : some grammar = o at h
  induction h with
  | refl => exact hns
  | @step text o lo hi ns xs seg ys cs e p str i view prior site returns children ih ihc =>
    subst ho
    obtain ⟨grammar', g', hgr, hg', he⟩ := site.entry
    cases hgr
    obtain rfl : g = g' := Option.some.inj (hg.symm.trans hg')
    have hprior : Filled (xs ++ seg ++ ys) := ih hns rfl
    have hview : view ≠ [] := hfills e he p site.pattern site.found
    obtain ⟨hxs, hys⟩ := List.forall_mem_append.mp hprior
    refine List.forall_mem_append.mpr ⟨List.forall_mem_append.mpr
      ⟨(List.forall_mem_append.mp hxs).1, ?_⟩, hys⟩
    exact List.forall_mem_append.mpr ⟨filled_textNode _, List.forall_mem_cons.mpr
      ⟨List.length_pos_iff.mpr hview, filled_textNode _⟩⟩

/-- Replacements add no empty `Text`. -/
theorem Rewrites.textsFilled {g : Option Nat} (h : Rewrites search tree text g lo hi ns ns')
    (hns : TextsFilled ns) : TextsFilled ns' := by
  induction h with
  | refl => exact hns
  | @step text g lo hi ns xs seg ys cs e p str i view prior site returns children ih ihc =>
    obtain ⟨hxs, hys⟩ := List.forall_mem_append.mp (ih hns)
    refine List.forall_mem_append.mpr ⟨List.forall_mem_append.mpr
      ⟨(List.forall_mem_append.mp hxs).1, ?_⟩, hys⟩
    -- The new `Syntax` is no `Text`.
    exact List.forall_mem_append.mpr ⟨(filled_textNode _).textsFilled, List.forall_mem_cons.mpr
      ⟨fun hs => (by cases hs), (filled_textNode _).textsFilled⟩⟩

/-- Whether nodes are empty depends on their tokens only. -/
theorem filled_congr {ms : List Node} (h : ms.map (·.tok) = ns.map (·.tok)) (hns : Filled ns) :
    Filled ms := by
  intro m hm
  obtain ⟨n, hn, heq⟩ := List.mem_map.mp (h ▸ List.mem_map_of_mem hm)
  rw [← heq]
  exact hns n hn

/-- Whether text nodes are empty depends on their tokens only. -/
theorem textsFilled_congr {ms : List Node} (h : ms.map (·.tok) = ns.map (·.tok))
    (hns : TextsFilled ns) : TextsFilled ms := by
  intro m hm
  obtain ⟨n, hn, heq⟩ := List.mem_map.mp (h ▸ List.mem_map_of_mem hm)
  rw [← heq]
  exact hns n hn

namespace Reached

variable {grammar : Nat}

/-- The tokens the algorithm can come to are filled, when no match of the grammar is empty. -/
theorem filled {g : Grammar} (hg : tree.resolveGrammar grammar = some g)
    (hfills : ∀ e ∈ g.entries, ∀ p, tree.resolvePattern e.pattern = some p → p.Fills search)
    (h : Reached search tree text grammar (ns.map (·.tok))) (htext : text ≠ []) : Filled ns := by
  obtain ⟨hi, ms, hr, htoks⟩ := h
  refine filled_congr htoks.symm (hr.filled hg hfills ?_)
  simpa [Filled] using List.length_pos_iff.mpr htext

/-- No `Text` the algorithm can come to is empty. -/
theorem textsFilled (h : Reached search tree text grammar (ns.map (·.tok))) (htext : text ≠ []) :
    TextsFilled ns := by
  obtain ⟨hi, ms, hr, htoks⟩ := h
  refine textsFilled_congr htoks.symm (hr.textsFilled ?_)
  simpa [TextsFilled] using List.length_pos_iff.mpr htext

end Reached

end TSubSpec.Prisma
