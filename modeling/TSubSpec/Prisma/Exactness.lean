import TSubSpec.Prisma.ListSafety
import TSubSpec.Prisma.Locality

/-!
# `TSubSpec.Prisma.Exactness`: a greedy match replaces what it overlaps

A greedy search looks at the whole text, so its match `[start, stop)` may begin in a later node than
the one at hand and end in yet another one. When it begins in a `Text`, the loop body replaces that
`Text` and every `Syntax` behind it that starts before `stop`, with the `Text`s between them.

`Rewritten` says what the list is after the step, cell by cell, and `greedy_exact` proves it of
every loop head a run comes to. The nodes around `start` are told apart by `contains_unique`: no two
nodes contain the same offset.
-/

set_option autoImplicit false

namespace TSubSpec.Prisma

open TSubSpec.Lib
open TSubSpec.Lib.Traced
open Prog

variable {search : RegexSearch} {tree : LanguageTree}

/-! ### Nodes and offsets -/

/-- A node of the run with its offset. -/
theorem mem_offsets {x : Nat × Node} : ∀ {ns : List Node} {o : Nat}, x ∈ offsets o ns →
    ∃ xs ys, ns = xs ++ x.2 :: ys ∧ x.1 = o + width xs
  | [], o, hx => by cases hx
  | n :: ns, o, hx => by
    rcases List.mem_cons.mp hx with rfl | hx
    · exact ⟨[], ns, rfl, rfl⟩
    · obtain ⟨xs, ys, rfl, hpos⟩ := mem_offsets hx
      refine ⟨n :: xs, ys, rfl, ?_⟩
      rw [hpos, width_cons, Nat.add_assoc]

/-- The node at the cut contains the offset `start`: it begins there or before, and ends behind
it. -/
def Contains (start : Nat) (front : List Cell) (c : Cell) : Prop :=
  width (nodesOf front) ≤ start ∧ start < width (nodesOf front) + c.tok.length

/-- A node in front of another one ends before it starts. -/
theorem Contains.not_before {start : Nat} {front u : List Cell} {c c' : Cell}
    (h : Contains start front c) : ¬ Contains start (front ++ c :: u) c' := by
  intro h'
  have hle := h'.1
  rw [nodesOf_append, nodesOf_cons, width_append, width_cons] at hle
  have hlt := h.2
  rw [Cell.tok_node] at hle
  omega

/-- A contained offset is one of the run. -/
theorem Contains.lt_width {start : Nat} {front behind : List Cell} {c : Cell}
    (h : Contains start front c) : start < width (nodesOf (front ++ c :: behind)) := by
  have hlt := h.2
  rw [nodesOf_append, nodesOf_cons, width_append, width_cons, Cell.tok_node]
  omega

/-- Only one node contains an offset. -/
theorem contains_unique {start : Nat} {front front' behind behind' : List Cell} {c c' : Cell}
    (heq : front ++ c :: behind = front' ++ c' :: behind') (h : Contains start front c)
    (h' : Contains start front' c') : front = front' ∧ c = c' ∧ behind = behind' := by
  rcases List.append_eq_append_iff.mp heq with ⟨u, rfl, hu⟩ | ⟨u, rfl, hu⟩
  · cases u with
    | nil =>
      obtain ⟨hc, hb⟩ := List.cons.inj hu
      exact ⟨(List.append_nil _).symm, hc, hb⟩
    | cons d u =>
      obtain ⟨rfl, -⟩ := List.cons.inj hu
      exact (h.not_before h').elim
  · cases u with
    | nil =>
      obtain ⟨hc, hb⟩ := List.cons.inj hu
      exact ⟨List.append_nil _, hc.symm, hb.symm⟩
    | cons d u =>
      obtain ⟨rfl, -⟩ := List.cons.inj hu
      exact (h'.not_before h).elim

/-! ### The list after the step -/

/-- The list `list` after the greedy match `view` at `start` was written over the `Text` `t`, which
lay between `front` and `behind`. The cells `gone` were removed and the cells `kept` were not. New
are the text before the match `before`, its `Syntax` `token`, and the text after it `after`. -/
structure Rewritten (text : Bytes) (e : Entry) (p : Pattern) (start : Nat) (view : Bytes)
    (front : List Cell) (t : Cell) (behind : List Cell) (list : TokenList) (h : Heap)
    (gone kept before : List Cell) (token : Cell) (after : List Cell) : Prop where
  behind_eq : behind = gone ++ kept
  /-- The cells in front of the `Text` are the same, and so are the cells kept. -/
  rep : Rep h list (front ++ before ++ token :: (after ++ kept))
  /-- The text from the start of the `Text` to the match, if there is any. -/
  shows_before : Shows before (Seq.textNode ((text.take start).drop (width (nodesOf front))))
  /-- The `Syntax` covers the match. -/
  token_eq : ∃ children, token.tok = .syn e.token children p.aliasName view.length
  start_eq : width (nodesOf (front ++ before)) = start
  /-- The text from the match to the next cell that was kept, if there is any. -/
  shows_after : Shows after (Seq.textNode
    ((text.take (width (nodesOf (front ++ t :: gone)))).drop (start + view.length)))
  /-- The next cell that was kept is a `Syntax`. Without one, the text ends there. -/
  next_isSyntax : ∀ k ∈ kept.head?, k.tok.isSyntax = true
  end_of_text : kept = [] → width (nodesOf (front ++ t :: gone)) = text.length
  /-- Every `Syntax` that was removed started before the end of the match. -/
  gone_starts : ∀ x ∈ offsets (width (nodesOf front) + t.tok.length) (nodesOf gone),
    x.2.tok.isSyntax = true → x.1 < start + view.length
  /-- Every cell that was kept starts at the end of the match or later. -/
  kept_starts : ∀ x ∈ offsets (width (nodesOf (front ++ t :: gone))) (nodesOf kept),
    start + view.length ≤ x.1
  /-- The cells that were kept have not moved. -/
  kept_offset : width (nodesOf (front ++ before ++ token :: after)) =
    width (nodesOf (front ++ t :: gone))

/-- A loop head at a `Text`. -/
theorem LoopAt.cons_of_text {c : Call} {ptr : TokenListPtr} {pos : Nat} {list : TokenList}
    {h : Heap} {ps qs : List Cell} {value : Bytes} (hl : LoopAt search tree c ptr pos list h ps qs)
    (current : h.payload ptr = some (.text value)) :
    ptr ≠ list.head ∧ ∃ q qs', qs = q :: qs' ∧ q.tok = .text value := by
  obtain ⟨rfl, -, hp⟩ := hl
  have hne : Rep.back list qs ≠ list.head := by
    intro hhead
    rw [hhead, hp.rep.spine.sentinel] at current
    cases current
  refine ⟨hne, ?_⟩
  cases qs with
  | nil => exact (hne rfl).elim
  | cons q qs =>
    have hq : q ∈ ps ++ q :: qs := by simp
    rw [Rep.back_cons, hp.rep.spine.payloads q hq] at current
    exact ⟨q, qs, rfl, ((hp.rep.owns q hq).text_iff value).mp (Option.some.inj current)⟩

/-- The search comes to the `Text` that contains the start of the match, whichever node it is at. -/
theorem inspect_contains {c : Call} {ptr : TokenListPtr} {pos fuel start : Nat} {p : Pattern}
    {list : TokenList} {h h' : Heap} {l : Located} {view : Bytes} {ps qs front behind : List Cell}
    {t : Cell} (hl : LoopAt search tree c ptr pos list h ps qs) (hg : p.greedy = true)
    (current : h.IsText ptr) (hit : p.matchText search pos c.text = some (start, view))
    (heq : ps ++ qs = front ++ t :: behind) (ht : t.tok.isSyntax = false)
    (hstart : Contains start front t)
    (found : (inspect search fuel c.text list p ptr pos).Gives h l h') :
    h' = h ∧ ∃ gone kept, behind = gone ++ kept ∧
      nodesOf (t :: gone) = affected (start + view.length) (width (nodesOf front))
        (nodesOf (t :: behind)) ∧
      width (nodesOf (front ++ t :: gone)) ≤ c.text.length ∧
      l = .found t.ptr (width (nodesOf front))
        ((c.text.drop (width (nodesOf front))).take (width (nodesOf (t :: gone))))
        (start - width (nodesOf front)) view (t :: gone).length := by
  have hp := hl.2.2
  have hwidth := hp.width_eq
  obtain ⟨value, hvalue⟩ := current
  obtain ⟨hin, q, qs, rfl, hq⟩ := hl.cons_of_text hvalue
  obtain ⟨rfl, _, _, b, hqs, hsame, hb⟩ := Point.inspect_at hl hin found
  cases hqs
  obtain ⟨-, rfl, -⟩ := hl
  have hlt : start < c.text.length := by
    rw [← hwidth, ← nodesOf_append, heq]
    exact hstart.lt_width
  have hnode : q.node = ⟨some q.ptr, .text value⟩ := by rw [Cell.node, hq]
  rw [hnode] at hb
  obtain ⟨kept, current, rest, hns, hle, hlt', hcase⟩ :=
    Seq.inspect_greedy (by rw [← hnode]; simpa using hwidth) hg hit hlt hb
  -- The cells of the nodes the search passes over, and of the node it comes to.
  obtain ⟨qk, qr, hcells, rfl, hqr⟩ := List.map_eq_append_iff.mp
    (show (q :: qs).map Cell.node = _ by rw [List.map_cons, hnode]; exact hns)
  obtain ⟨t', behind', rfl, rfl, rfl⟩ := List.map_eq_cons_iff.mp hqr
  have hsum : width (nodesOf (ps ++ qk)) = width (nodesOf ps) + width (qk.map Cell.node) := by
    rw [nodesOf_append, width_append]
    rfl
  have heq' : (ps ++ qk) ++ t' :: behind' = front ++ t :: behind := by
    rw [List.append_assoc, ← hcells, heq]
  have hstart' : Contains start (ps ++ qk) t' := ⟨hsum ▸ hle, hsum ▸ hlt'⟩
  obtain ⟨rfl, rfl, rfl⟩ := contains_unique heq' hstart' hstart
  rcases hcase with ⟨hsyn, -⟩ | ⟨-, seg, ys, hsplit, hseg, hinside, rfl⟩
  · rw [Cell.node, ht] at hsyn
    cases hsyn
  · -- The run is the `Text` with the cells `gone`.
    obtain ⟨qseg, kept, hrun, rfl, rfl⟩ := List.map_eq_append_iff.mp
      (show (t' :: behind').map Cell.node = _ from hsplit.symm)
    obtain ⟨gone, rfl⟩ : ∃ gone, qseg = t' :: gone := by
      cases qseg with
      | nil =>
        rw [affected, if_pos (by simp [Cell.node, ht])] at hseg
        cases hseg
      | cons d gone => exact ⟨gone, by rw [(List.cons.inj hrun).1]⟩
    have hpos : width (nodesOf ps) + width (qk.map Cell.node) = width (nodesOf (ps ++ qk)) :=
      hsum.symm
    rw [hpos] at hseg hinside hsame
    refine ⟨rfl, gone, kept, (List.cons.inj hrun).2, hseg, ?_, ?_⟩
    · rw [nodesOf_append, width_append]
      exact hinside
    · cases hsame with
      | @found qk' qr' _ _ _ _ _ _ _ hcells' hcut =>
        rw [List.length_map] at hcut
        obtain ⟨-, rfl⟩ := List.append_inj (hcells'.symm.trans hcells) hcut
        rw [Rep.back_cons, List.length_map]
        rfl

/-- Cutting the middle out of a slice. -/
theorem take_sub_take_drop (text : Bytes) {o i n : Nat} (ho : o ≤ i) (hi : i ≤ o + n) :
    ((text.drop o).take n).take (i - o) = (text.take i).drop o := by
  rw [List.take_take, Nat.min_eq_left (by omega), List.drop_take]

/-- The rest of a stretch of the text, from a place inside of it. -/
theorem drop_sub_take_drop (text : Bytes) {o i n : Nat} (ho : o ≤ i) :
    ((text.drop o).take n).drop (i - o) = (text.take (o + n)).drop i := by
  rw [List.drop_take, List.drop_drop, List.drop_take, Nat.add_sub_cancel' ho]
  congr 1
  omega

section Removed

variable {stop : Nat} {front gone kept : List Cell} {t : Cell}

/-- The run of cells that is removed ends in front of a `Syntax`. -/
theorem next_isSyntax_of_affected (hrun : nodesOf (t :: gone) =
    affected stop (width (nodesOf front)) (nodesOf (t :: (gone ++ kept)))) :
    ∀ k ∈ kept.head?, k.tok.isSyntax = true := by
  have hnext := affected_stops stop (width (nodesOf front)) (nodesOf (t :: (gone ++ kept)))
    (nodesOf kept) (by rw [← hrun, ← nodesOf_append, List.cons_append])
  intro k hk
  exact hnext k.node (by rw [nodesOf, List.head?_map, hk]; rfl)

/-- A `Syntax` that is removed starts in front of `stop`. -/
theorem gone_starts_of_affected (hrun : nodesOf (t :: gone) =
    affected stop (width (nodesOf front)) (nodesOf (t :: (gone ++ kept)))) :
    ∀ x ∈ offsets (width (nodesOf front) + t.tok.length) (nodesOf gone),
      x.2.tok.isSyntax = true → x.1 < stop := by
  intro x hx hsyn
  obtain ⟨xs, ys, hgone, hpos⟩ := mem_offsets hx
  have hmem := affected_starts stop (width (nodesOf front)) (nodesOf (t :: (gone ++ kept)))
    (t.node :: xs) ys x.2 (by rw [← hrun, nodesOf_cons, hgone, List.cons_append])
  rcases hmem with hlt | htext
  · rw [width_cons, Cell.tok_node] at hlt
    omega
  · rw [hsyn] at htext
    cases htext

end Removed

/-- Writing the match replaces the `Text` and the cells `gone`. -/
theorem write_rewritten {c : Call} {e : Entry} {p : Pattern} {fuel start : Nat} {list : TokenList}
    {h h' : Heap} {view : Bytes} {front gone kept : List Cell} {t : Cell}
    {a : TokenListPtr × Bytes × TokenList × TokenList}
    (hr : Rep h list (front ++ t :: (gone ++ kept)))
    (hwidth : width (nodesOf (front ++ t :: (gone ++ kept))) = c.text.length)
    (hstart : Contains start front t)
    (hrun : nodesOf (t :: gone) = affected (start + view.length) (width (nodesOf front))
      (nodesOf (t :: (gone ++ kept))))
    (write : (writeMatch search tree fuel c e p list t.ptr
      ((c.text.drop (width (nodesOf front))).take (width (nodesOf (t :: gone))))
      (start - width (nodesOf front)) view (t :: gone).length).Gives h a h') :
    ∃ before token after, a.1 = token.ptr ∧ Rewritten c.text e p start view front t (gone ++ kept)
      a.2.2.1 h' gone kept before token after := by
  obtain ⟨w, hw, before, token, after, hwr⟩ := ((mirrors fuel).writeMatch_mirrors
    (Point.sameCall c front) e p (show Rep h list (front ++ ((t :: gone) ++ kept)) from hr)
    (List.cons_ne_nil _ _)).ok write
  obtain ⟨⟨b, s⟩, hcut, hw⟩ := Traced.bind_result_ok.mp hw
  obtain ⟨children, -, hw⟩ := Traced.bind_result_ok.mp hw
  cases hw
  obtain ⟨hfits, rfl, rfl⟩ := Seq.cutOut_ok hcut
  refine ⟨before, token, after, hwr.ptr_eq, ?_⟩
  have hle := hstart.1
  have hsum : width (nodesOf front) + width (nodesOf (t :: gone)) + width (nodesOf kept) =
      c.text.length := by
    rw [← hwidth, ← List.cons_append, nodesOf_append, nodesOf_append, width_append, width_append,
      Nat.add_assoc]
  have hstop : width (nodesOf (front ++ t :: gone)) =
      width (nodesOf front) + width (nodesOf (t :: gone)) := by
    rw [nodesOf_append, width_append]
  rw [List.length_take, List.length_drop] at hfits
  have hend : start + view.length ≤ width (nodesOf (front ++ t :: gone)) := by omega
  -- The texts before and after the match are slices of the whole text.
  have hbefore := hwr.shows_before
  have hafter := hwr.shows_after
  rw [take_sub_take_drop c.text hle (by omega)] at hbefore
  rw [← Nat.sub_add_comm hle, drop_sub_take_drop c.text (by omega), ← hstop] at hafter
  have hwbefore : width (nodesOf (front ++ before)) = start := by
    rw [nodesOf_append, width_append, hbefore.width_eq, width_textNode, List.length_drop,
      List.length_take]
    omega
  exact
    { behind_eq := rfl
      rep := hwr.rep
      shows_before := hbefore
      token_eq := ⟨_, hwr.sees.tok⟩
      start_eq := hwbefore
      shows_after := hafter
      next_isSyntax := next_isSyntax_of_affected hrun
      end_of_text := by
        rintro rfl
        rw [hstop, ← hsum]
        rfl
      gone_starts := gone_starts_of_affected hrun
      kept_starts := by
        intro x hx
        obtain ⟨xs, ys, -, hpos⟩ := mem_offsets hx
        omega
      kept_offset := by
        rw [nodesOf_append, width_append, hwbefore, nodesOf_cons, width_cons, hafter.width_eq,
          width_textNode, List.length_drop, List.length_take]
        have : token.node.tok.length = view.length := by
          rw [Cell.tok_node, hwr.sees.tok]
          rfl
        omega }

/-- The loop body replaces exactly what a greedy match overlaps. The match starts in the `Text` `t`
of the list, which is the node the loop is at or lies behind it. The nodes in front of `t` and those
behind the last node that the match touches keep their addresses and their contents. -/
theorem greedy_exact (search : RegexSearch) (tree : LanguageTree) (text : Bytes) (grammar : Nat)
    (h : Heap) {c : Call} {e : Entry} {p : Pattern} {ptr : TokenListPtr} {pos start fuel : Nat}
    {list : TokenList} {r : Option RematchOptions} {h₁ h₂ : Heap} {view : Bytes}
    {front behind : List Cell} {t : Cell} {l : Located}
    (hloop : Comes search tree text grammar h (.nodes c e p ptr pos list r h₁))
    (hlist : Rep h₁ list (front ++ t :: behind)) (hg : p.greedy = true) (current : h₁.IsText ptr)
    (hit : p.matchText search pos c.text = some (start, view)) (ht : t.tok.isSyntax = false)
    (hstart : Contains start front t)
    (found : (inspect search fuel c.text list p ptr pos).Gives h₁ l h₂) :
    h₂ = h₁ ∧ ∃ str i removeCount,
      l = .found t.ptr (width (nodesOf front)) str i view removeCount ∧
      ∀ fuel a h₃, (writeMatch search tree fuel c e p list t.ptr str i view
        removeCount).Gives h₁ a h₃ → ∃ gone kept before token after, a.1 = token.ptr ∧
          Rewritten c.text e p start view front t behind a.2.2.1 h₃ gone kept before token
            after := by
  obtain ⟨-, ps, qs, hl⟩ := hloop.sound
  have hp := hl.2.2
  have heq := hp.rep.unique hlist
  have hwidth : width (nodesOf (front ++ t :: behind)) = c.text.length := by
    rw [← heq, nodesOf_append]
    exact hp.width_eq
  -- First the search: it stops at the text that the match starts in, and the cells before stay.
  obtain ⟨hh, gone, kept, rfl, hrun, -, rfl⟩ :=
    inspect_contains hl hg current hit heq ht hstart found
  refine ⟨hh, _, _, _, rfl, fun fuel a h₃ write => ?_⟩
  obtain ⟨before, token, after, hptr, hrew⟩ := write_rewritten hlist hwidth hstart hrun write
  exact ⟨gone, kept, before, token, after, hptr, hrew⟩

/-- A greedy match of a string in quotes, with the nodes that it replaces. -/
theorem greedy_exact_quote : ∃ c ptr list h₁ front t behind list' h₃ gone kept before token after,
    Comes literalSearch quoteTree quoteText 0 Heap.empty
        (.nodes c quoteString quoted ptr 2 list none h₁) ∧
      Rep h₁ list (front ++ t :: behind) ∧ Contains 3 front t ∧
      Rewritten quoteText quoteString quoted 3 (ascii "'if'") front t behind list' h₃ gone kept
        before token after := by
  obtain ⟨c, ptr, list, h₁, value, hat, ptr', pos', str, i, view, removeCount, h₂, found, -, a, h₃,
    -, write, -⟩ := quote_comes
  obtain ⟨-, ps, qs, hl⟩ := hat.comes.sound
  obtain ⟨-, t, behind, rfl, ht⟩ := hl.cons_of_text hat.payload
  have hstart : Contains 3 ps t := by
    rw [Contains, ← hl.2.1, ht, Tok.length_text, hat.length_eq]
    omega
  have hit : quoted.matchText literalSearch 2 c.text = some (3, ascii "'if'") := by
    rw [hat.text]
    decide
  obtain ⟨rfl, str, i, removeCount, hfound, hwrite⟩ :=
    greedy_exact literalSearch quoteTree quoteText
    0 Heap.empty hat.comes hl.2.2.rep rfl ⟨value, hat.payload⟩ hit (by rw [ht]; rfl) hstart found
  cases hfound
  obtain ⟨gone, kept, before, token, after, -, hrew⟩ := hwrite _ _ _ write
  rw [hat.text] at hrew
  exact ⟨_, _, _, _, _, _, _, _, _, _, _, _, _, _, hat.comes, hl.2.2.rep, hstart, hrew⟩

end TSubSpec.Prisma
