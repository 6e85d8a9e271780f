import TSubSpec.Prisma.Filled
import TSubSpec.Prisma.Reaching

/-!
# `TSubSpec.Prisma.Locality`: a rematch is local

`Replaced hi o ns ns'` says that at most one stretch of `ns` was replaced, which ends at the offset
`hi` at the latest. `Rewrites.replaced` shows that replacements from an offset on do no more, and
`Replaced.beyond` that the nodes from `hi` on are then still there, at their offsets.

`rematch_local` says so of every call of `matchGrammar` that a run makes to rematch, with the reach
the call returns as `hi`. The nodes are told apart by their addresses.
-/

set_option autoImplicit false

namespace TSubSpec.Prisma

open TSubSpec.Lib
open TSubSpec.Lib.Traced
open Prog

/-- The nodes with their offsets, from `o` on. -/
def offsets : Nat → List Node → List (Nat × Node)
  | _, [] => []
  | o, n :: ns => (o, n) :: offsets (o + n.tok.length) ns

/-- At most one stretch of the nodes at `o` was replaced. It keeps its width, ends at `hi` at the
latest, and its last node is not empty. -/
def Replaced (hi o : Nat) (ns ns' : List Node) : Prop :=
  ns' = ns ∨ ∃ mid last mid' rest, ns = (mid ++ [last]) ++ rest ∧ ns' = mid' ++ rest ∧
    width mid' = width (mid ++ [last]) ∧ o + width (mid ++ [last]) ≤ hi ∧ 0 < last.tok.length

variable {search : RegexSearch} {tree : LanguageTree} {text : Bytes} {g : Option Nat}
  {hi o pos i : Nat} {xs ns ns' seg ys : List Node} {p : Pattern} {str view : Bytes}

/-! ### Offsets -/

/-- The positions of two stretches of nodes: those of the second begin where the first ends. -/
theorem offsets_append (o : Nat) (xs ys : List Node) :
    offsets o (xs ++ ys) = offsets o xs ++ offsets (o + width xs) ys := by
  induction xs generalizing o with
  | nil => rfl
  | cons n xs ih =>
    rw [List.cons_append, offsets, offsets, ih, width_cons, Nat.add_assoc, List.cons_append]

/-- No node starts behind the end of the run. -/
theorem le_of_mem_offsets {x : Nat × Node} (hx : x ∈ offsets o ns) : x.1 ≤ o + width ns := by
  induction ns generalizing o with
  | nil => cases hx
  | cons n ns ih =>
    rw [offsets] at hx
    rw [width_cons]
    rcases List.mem_cons.mp hx with rfl | hx
    · exact Nat.le_add_right _ _
    · have := ih hx
      omega

/-! ### Replacements leave the nodes behind them alone -/

/-- A node of the run of a greedy match starts before the end of the match, or is a `Text`. -/
theorem affected_starts (stop : Nat) : ∀ (pos : Nat) (ns xs ys : List Node) (k : Node),
    affected stop pos ns = xs ++ k :: ys → pos + width xs < stop ∨ k.tok.isSyntax = false
  | pos, [], xs, ys, k, h => by simp [affected] at h
  | pos, n :: ns, xs, ys, k, h => by
    rw [affected] at h
    split at h
    · rename_i hn
      cases xs with
      | nil =>
        obtain ⟨rfl, -⟩ := List.cons.inj h
        simpa using hn
      | cons x xs =>
        obtain ⟨rfl, htl⟩ := List.cons.inj h
        have := affected_starts stop _ ns xs ys k htl
        rwa [width_cons, ← Nat.add_assoc]
    · simp at h

/-- The last node of a run is not empty. -/
theorem Found.last_pos (h : Found search p text pos seg ys str i view)
    (fits : i + view.length ≤ str.length) (hfill : TextsFilled seg) :
    ∃ front last, seg = front ++ [last] ∧ 0 < last.tok.length := by
  cases h with
  | @plain l value ys i view greedy hit => exact ⟨[], _, rfl, hfill _ (by simp) rfl⟩
  | @whole l value ns seg ys q start view greedy hit pos_le lt lt_text run split inside =>
    have hne : seg ≠ [] := by
      rw [run, affected, if_pos (by simp)]
      exact List.cons_ne_nil _ _
    have hseg := List.dropLast_concat_getLast hne
    refine ⟨_, _, hseg.symm, ?_⟩
    have hwidth := congrArg width hseg
    rw [width_append, width_cons, width_nil] at hwidth
    rcases affected_starts _ _ _ _ _ _ (run.symm.trans hseg.symm) with hlt | htext
    · -- The match ends inside the run, and the last node starts before its end.
      rw [List.length_take, List.length_drop] at fits
      omega
    · exact hfill _ (List.getLast_mem hne) htext

/-- One more replacement. -/
theorem Replaced.step {t new : List Node} (hprior : Replaced hi o ns (t ++ seg ++ ys))
    (hseg : ∃ front last, seg = front ++ [last] ∧ 0 < last.tok.length)
    (hwidth : width new = width seg) (hle : o + width t + width seg ≤ hi) :
    Replaced hi o ns (t ++ new ++ ys) := by
  obtain ⟨front, last, rfl, hlast⟩ := hseg
  rcases hprior with hsame | ⟨mid, last₁, mid', rest, rfl, heq, hmid, hend, hlast₁⟩
  · refine Or.inr ⟨t ++ front, last, t ++ new, ys, by simp [← hsame], rfl, ?_, ?_, hlast⟩
    · rw [List.append_assoc, width_append, width_append, hwidth]
    · rw [List.append_assoc, width_append]
      omega
  · rcases List.append_eq_append_iff.mp heq with ⟨u, rfl, rfl⟩ | ⟨u, hmid', rfl⟩
    · -- The run lies in the stretch that was replaced before.
      refine Or.inr ⟨mid, last₁, t ++ new ++ u, rest, rfl, by simp, ?_, hend, hlast₁⟩
      rw [← hmid]
      simp only [width_append, hwidth]
    · rcases List.eq_nil_or_concat u with rfl | ⟨u, last₂, rfl⟩
      · refine Or.inr ⟨mid, last₁, t ++ new, ys, by simp, rfl, ?_, hend, hlast₁⟩
        rw [← hmid, ← List.append_nil mid', ← hmid']
        simp only [width_append, hwidth]
      · -- The stretch grows up to the end of the run.
        rw [← List.append_assoc, List.concat_eq_append, ← List.append_assoc] at hmid'
        obtain ⟨hfront, hlast₂⟩ := List.append_inj' hmid' rfl
        cases hlast₂
        have hsum := congrArg width hfront
        simp only [width_append] at hsum hmid hwidth hle
        refine Or.inr ⟨mid ++ [last₁] ++ u, last, t ++ new, ys, by simp, rfl, ?_, ?_, hlast⟩
        · simp only [width_append] at hwidth ⊢
          omega
        · simp only [width_append]
          omega

/-- Replacements from the end of `xs` on keep `xs`, and replace at most one stretch behind it. -/
theorem Rewrites.replaced {ms ns' : List Node}
    (h : Rewrites search tree text g (width xs) hi ms ns') (hms : ms = xs ++ ns)
    (hfill : TextsFilled ms) :
    ∃ ns'', ns' = xs ++ ns'' ∧ Replaced hi (width xs) ns ns'' := by
  generalize hlo : width xs = lo at h
  induction h with
  | refl => exact ⟨ns, hms, Or.inl rfl⟩
  | @step text g lo hi ms xs' seg ys cs e p str i view prior site returns children ih ihc =>
    obtain ⟨ns'', hsplit, hrep⟩ := ih hms hfill hlo
    have hfill' := prior.textsFilled hfill
    have hlast := site.found.last_pos site.fits fun n hn => hfill' n (by simp [hn])
    -- The run starts with a `Text`, so it does not start in `xs`.
    obtain ⟨t, rfl⟩ : ∃ t, xs' = xs ++ t := by
      obtain ⟨l, value, tl, hseg⟩ := site.found.starts
      rw [List.append_assoc] at hsplit
      rcases List.append_eq_append_iff.mp hsplit with ⟨u, rfl, hu⟩ | ⟨u, rfl, -⟩
      · cases u with
        | nil => exact ⟨[], by simp⟩
        | cons k u =>
          rw [hseg] at hu
          obtain ⟨rfl, -⟩ := List.cons.inj hu
          have hpos := hfill' ⟨l, .text value⟩ (by simp [hseg]) rfl
          have hle := site.lo_le
          rw [← hlo, width_append, width_cons] at hle
          omega
      · exact ⟨u, rfl⟩
    rw [List.append_assoc xs t, List.append_assoc xs] at hsplit
    have hns := List.append_cancel_left hsplit
    refine ⟨t ++ replacement e p str i view cs ++ ys, by simp, ?_⟩
    rw [← hns] at hrep
    refine hrep.step hlast site.width_eq ?_
    have hle := site.le_hi
    rw [site.found.length_eq, width_append, hlo] at hle
    exact hle

/-! ### What a replacement keeps -/

/-- Every node that started at `hi` or later is still there, at its offset and in order. -/
theorem Replaced.beyond (h : Replaced hi o ns ns') :
    ((offsets o ns).filter fun x => hi ≤ x.1).Sublist (offsets o ns') := by
  rcases h with rfl | ⟨mid, last, mid', rest, rfl, rfl, hwidth, hend, hlast⟩
  · exact List.filter_sublist
  · -- All nodes of the stretch started before `hi`.
    have hnone : (offsets o (mid ++ [last])).filter (fun x => hi ≤ x.1) = [] := by
      refine List.filter_eq_nil_iff.mpr fun x hx => ?_
      rw [offsets_append] at hx
      rw [width_append, width_cons, width_nil] at hend
      have hlt : x.1 < hi := by
        rcases List.mem_append.mp hx with hx | hx
        · have := le_of_mem_offsets hx
          omega
        · rw [offsets, offsets, List.mem_singleton] at hx
          rw [hx]
          omega
      simpa using hlt
    rw [offsets_append o (mid ++ [last]), List.filter_append, hnone, List.nil_append,
      offsets_append o mid', hwidth]
    exact List.filter_sublist.trans (List.sublist_append_right _ _)

/-- Only nodes that end at `hi` at the latest were replaced. -/
theorem Replaced.within (h : Replaced hi o ns ns') :
    ∃ mid mid' rest, ns = mid ++ rest ∧ ns' = mid' ++ rest ∧ width mid' = width mid ∧
      (mid' = mid ∨ o + width mid ≤ hi) := by
  rcases h with rfl | ⟨mid, last, mid', rest, rfl, rfl, hwidth, hend, -⟩
  · exact ⟨[], [], ns', rfl, rfl, rfl, Or.inl rfl⟩
  · exact ⟨_, mid', rest, rfl, rfl, hwidth, Or.inr hend⟩

/-! ### Calls -/

/-- Labelled nodes tell which cells hold them. -/
theorem Shows.nodesOf_eq {cs : List Cell} (hs : Shows cs ns)
    (hlabel : ∀ n ∈ ns, ∃ l, n.label = some l) : nodesOf cs = ns := by
  induction hs with
  | nil => rfl
  | @cons c n cs ns hc hs ih =>
    obtain ⟨l, hl⟩ := hlabel n List.mem_cons_self
    have hnode : c.node = n := by
      obtain ⟨label, tok⟩ := n
      obtain rfl : label = some l := hl
      rw [Cell.node, hc.tok, hc.label l rfl]
    rw [nodesOf_cons, hnode, ih fun n hn => hlabel n (List.mem_cons_of_mem _ hn)]

/-- What was not replaced is in the same cells. -/
theorem Replaced.labelled {qs qs' : List Cell} (h : Replaced hi o (nodesOf qs) ns')
    (hs : Shows qs' ns') : Replaced hi o (nodesOf qs) (nodesOf qs') := by
  have hlabel : ∀ n ∈ nodesOf qs, ∃ l, n.label = some l := fun n hn => by
    obtain ⟨c, -, rfl⟩ := List.mem_map.mp hn
    exact ⟨c.ptr, rfl⟩
  rcases h with rfl | ⟨mid, last, mid', rest, heq, rfl, hwidth, hend, hlast⟩
  · exact Or.inl (hs.nodesOf_eq hlabel)
  · obtain ⟨qm, qz, rfl, hqm, hqz⟩ := hs.append_left
    have hrest := hqz.nodesOf_eq fun n hn => hlabel n (by rw [heq]; simp [hn])
    refine Or.inr ⟨mid, last, nodesOf qm, rest, heq, ?_, ?_, hend, hlast⟩
    · rw [nodesOf_append, hrest]
    · rw [hqm.width_eq, hwidth]

namespace Seq

variable {fuel before : Nat} {c : Call} {r r' : Option RematchOptions}

/-- On an empty text the guard on the list length stops the loop at the first node. -/
theorem matchNodes_empty {e : Entry} {flow : Flow} (htext : c.text = [])
    (h : (Seq.matchNodes search tree fuel c e p before ns pos r).result = .ok (flow, ns', r')) :
    ns' = ns ∧ r' = r := by
  cases fuel with
  | zero => simp [Seq.matchNodes] at h
  | succ fuel =>
    have hturn := Seq.matchNodes_ok_iff.mp h
    have hlen : c.text.length = 0 := by rw [htext]; rfl
    cases hturn with
    | done => exact ⟨rfl, rfl⟩
    | reached => exact ⟨rfl, rfl⟩
    | aborted => exact ⟨rfl, rfl⟩
    | stop => exact ⟨rfl, rfl⟩
    | skip hr hg => simp only [List.length_cons] at hg; omega
    | found hr hg => simp only [List.length_cons] at hg; omega

/-- So a call on an empty text changes nothing. -/
theorem matchPatterns_empty (htext : c.text = []) : ∀ {fuel : Nat} {es : List Entry}
    {ns ns' : List Node} {r r' : Option RematchOptions},
    (Seq.matchPatterns search tree fuel c es ns r).result = .ok (ns', r') → ns' = ns
  | 0, es, ns, ns', r, r', h => by simp [Seq.matchPatterns] at h
  | fuel + 1, es, ns, ns', r, r', h => by
    cases matchPatterns_ok h with
    | done => rfl
    | cause => rfl
    | returned _ _ hnodes => exact (matchNodes_empty htext hnodes).1
    | finished _ _ hnodes next =>
      obtain ⟨rfl, rfl⟩ := matchNodes_empty htext hnodes
      exact matchPatterns_empty htext next

/-- A call replaces at most one stretch of the nodes behind `xs`, up to its final reach. -/
theorem matchGrammar_replaced (hpos : c.startPos = width xs)
    (hw : width (xs ++ ns) = c.text.length) (hfill : c.text ≠ [] → TextsFilled (xs ++ ns))
    (h : (Seq.matchGrammar search tree fuel c ns r).result = .ok (ns', r')) :
    Replaced (reachOf c.text r') (width xs) ns ns' := by
  by_cases htext : c.text = []
  · cases fuel with
    | zero => simp [Seq.matchGrammar] at h
    | succ fuel =>
      rw [Seq.matchGrammar] at h
      obtain ⟨g, -, h⟩ := Traced.bind_result_ok.mp h
      exact Or.inl (matchPatterns_empty htext h)
  · have hout := (Seq.sound fuel).matchGrammar xs hpos hw h
    obtain ⟨ns'', heq, hrep⟩ := hout.rewrites.replaced rfl (hfill htext)
    rwa [List.append_cancel_left heq]

end Seq

/-- What a rematch leaves. The list is cut behind `startNode`, into the cells `ps` and `qs`, and the
first ones stay, with all of `qs` that lies behind the final reach. -/
structure RematchedAt (c : Call) (list : TokenList) (r : RematchOptions) (h : Heap)
    (list' : TokenList) (r' : RematchOptions) (h' : Heap) (ps qs qs' : List Cell) : Prop where
  before : Rep h list (ps ++ qs)
  startNode : c.startNode = Rep.front list ps
  startPos : c.startPos = width (nodesOf ps)
  head_eq : list'.head = list.head
  /-- The nodes up to `startNode` are the same cells. -/
  after : Rep h' list' (ps ++ qs')
  token_eq : r'.token = r.token
  j_eq : r'.j = r.j
  /-- The reach has only grown. -/
  reach_le : r.reach ≤ r'.reach
  /-- The nodes from the final reach on are there, at the same addresses and offsets, in order. -/
  beyond : ((offsets 0 (nodesOf (ps ++ qs))).filter fun x => r'.reach ≤ x.1).Sublist
    (offsets 0 (nodesOf (ps ++ qs')))
  /-- Only nodes between `startPos` and the final reach were replaced. -/
  within : ∃ mid mid' rest, nodesOf qs = mid ++ rest ∧ nodesOf qs' = mid' ++ rest ∧
    width mid' = width mid ∧ (mid' = mid ∨ c.startPos + width mid ≤ r'.reach)

/-- Every call that rematches is local: it leaves the nodes up to `startNode` and from the final
reach on as they are, by address. This holds of each call that a run comes to, the nested ones among
them, and the reach only grows in it. -/
theorem rematch_local (search : RegexSearch) (tree : LanguageTree) (text : Bytes) (grammar : Nat)
    (h : Heap) {c : Call} {list list' : TokenList} {r : RematchOptions}
    {r' : Option RematchOptions} {h₁ h₂ : Heap} {fuel : Nat}
    (hcall : Comes search tree text grammar h (.call c list (some r) h₁))
    (hret : (matchGrammar search tree fuel c list (some r)).Gives h₁ (list', r') h₂) :
    ∃ ps qs qs' r'', r' = some r'' ∧ RematchedAt c list r h₁ list' r'' h₂ ps qs qs' := by
  obtain ⟨ps, qs, hstart, hpos, hp⟩ := hcall.sound
  obtain ⟨⟨ns', r₁⟩, hb, hr, qs', hl⟩ :=
    ((mirrors fuel).matchGrammar (Point.sameCall c ps) hstart hpos rfl hp).ok hret
  obtain rfl : r' = r₁ := hr
  -- What the sequence keeps is labelled with its address, so it is in the same cells of the list.
  have hout :=
    (Seq.sound fuel).matchGrammar (nodesOf ps) (c := Point.seqCall c ps) hpos hp.width_eq hb
  have hseq := Seq.matchGrammar_replaced (c := Point.seqCall c ps) hpos hp.width_eq
    hp.reached.textsFilled hb
  have hrep := hseq.labelled hl.shows_back
  have hcause := hout.cause
  cases r' with
  | none => cases hcause
  | some r'' =>
    obtain ⟨htoken, hj⟩ := Prod.mk.inj (Option.some.inj hcause)
    refine ⟨ps, qs, qs', r'', rfl, ?_⟩
    exact
      { before := hp.rep
        startNode := hstart
        startPos := hpos
        head_eq := hl.head_eq
        after := hl.rep
        token_eq := htoken
        j_eq := hj
        reach_le := hout.reach_le
        beyond := by
          rw [nodesOf_append, nodesOf_append, offsets_append, offsets_append, List.filter_append,
            Nat.zero_add]
          exact List.filter_sublist.append hrep.beyond
        within := hpos ▸ hrep.within }

/-- A call that matches again what a string in quotes had removed. -/
theorem rematch_local_quote : ∃ c list r h₁ list' r' h₂ ps qs qs',
    Comes literalSearch quoteTree quoteText 0 Heap.empty (.call c list (some r) h₁) ∧
      (matchGrammar literalSearch quoteTree 30 c list (some r)).Gives h₁ (list', some r') h₂ ∧
      RematchedAt c list r h₁ list' r' h₂ ps qs qs' := by
  obtain ⟨c, ptr, list, h₁, value, hat, ptr', pos', str, i, view, removeCount, h₂, found, removed,
    a, h₃, n, write, current, ⟨list', r'⟩, h₄, hret⟩ := quote_comes
  have hcall := hat.comes.next (.rematch hat.enters found write removed current)
  obtain ⟨ps, qs, qs', r', rfl, hrem⟩ :=
    rematch_local literalSearch quoteTree quoteText 0 Heap.empty hcall hret
  exact ⟨_, _, _, _, _, _, _, ps, qs, qs', hcall, hret, hrem⟩

end TSubSpec.Prisma
