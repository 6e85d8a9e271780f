import TSubSpec.Prisma.Operations
import TSubSpec.Prisma.Failures

/-!
# `TSubSpec.Prisma.Simulation`: the linked list follows the sequence

Every function of `SyntaxHighlighter.cpp` over the linked list runs in lockstep with its
counterpart on sequences: `mirrors` gives both runs the same outcome, with the final list in the
heap holding the final sequence, and the same handovers. So what `Sequence.lean` says about the
algorithm holds of the code, and no pointer the code follows is dangling.

On the way every event of the run is shown to be `Sound`. The invariant is `Placed`: the list in the
heap, cut where the loop is, with tokens the algorithm can come to, and for the frames of the
suspended calls the addresses `pins` that no call behind the cut can remove.
-/

set_option autoImplicit false

namespace TSubSpec.Prisma

open TSubSpec.Lib
open TSubSpec.Lib.Traced
open Prog

/-! ### What an observer sees -/

/-- The grammar has a greedy pattern. -/
def LanguageTree.HasGreedy (tree : LanguageTree) (grammar : Nat) : Prop :=
  ∃ g, tree.resolveGrammar grammar = some g ∧
    ∃ e ∈ g.entries, ∃ p, tree.resolvePattern e.pattern = some p ∧ p.greedy = true

section

variable (search : RegexSearch) (tree : LanguageTree)

/-- The list an observer sees has the cells `cs`. The algorithm can come to their tokens, and the
frames only point at the cells or at the sentinel. Calls wait only when a pattern is greedy. -/
structure Snapshot.Sound (s : Snapshot) (cs : List Cell) : Prop where
  rep : Rep s.heap s.tokenList cs
  reached : Reached search tree s.text s.grammar (cs.map (·.tok))
  frames : ∀ f ∈ s.frames, f.startNode ∈ s.tokenList.head :: ptrs cs ∧
    ∀ p, f.currentNode = some p → p ∈ s.tokenList.head :: ptrs cs
  waiting : 1 < s.frames.length → tree.HasGreedy s.grammar

/-- An event shows nothing wrong: an observed list is sound, the guard on the list length only
fires when the list is longer than the text, and a node that is deleted is not the sentinel. -/
def Event.Sound : Event → Prop
  | .loopHead s | .entered s | .left s => ∃ cs, s.Sound search tree cs
  | .aborted s => ∃ cs, s.Sound search tree cs ∧ s.text.length < cs.length
  | .deleted head item => item ≠ head
  | .inside _ => True

end

/-- The event both levels log. -/
def Event.handover : Event → Option Handover
  | .inside h => some h
  | _ => none

/-! ### Cells and nodes of the sequence -/

/-- The cell holds the node. A label is the address of the cell. -/
structure Sees (c : Cell) (n : Node) : Prop where
  tok : c.tok = n.tok
  label : ∀ l, n.label = some l → l = c.ptr

/-- The cells hold the nodes. -/
abbrev Shows (cs : List Cell) (ns : List Node) : Prop := List.Forall₂ Sees cs ns

/-- The first cell, when it is a `Syntax`: the one cell behind a cut that a call cannot remove. -/
def leading : List Cell → List Cell
  | c :: _ => if c.tok.isSyntax then [c] else []
  | [] => []

/-- The addresses a frame may hold while a call works behind the cut between `ps` and `qs`. -/
def pins (list : TokenList) (ps qs : List Cell) : List TokenListPtr :=
  list.head :: ptrs (ps ++ leading qs)

/-- The pointers of the frame are pinned. -/
def Frame.Pinned (list : TokenList) (ps qs : List Cell) (f : Frame) : Prop :=
  f.startNode ∈ pins list ps qs ∧ ∀ p, f.currentNode = some p → p ∈ pins list ps qs

/-- The list in the heap is `ps ++ qs`, and holds the nodes `xs ++ ns`, which cover the text and
come from it by rewriting. -/
structure Placed (search : RegexSearch) (tree : LanguageTree) (h : Heap) (list : TokenList)
    (text : Bytes) (grammar : Nat) (frames : List Frame) (ps qs : List Cell) (xs ns : List Node) :
    Prop where
  rep : Rep h list (ps ++ qs)
  shows_front : Shows ps xs
  shows_back : Shows qs ns
  reached : Reached search tree text grammar ((xs ++ ns).map (·.tok))
  pinned : ∀ f ∈ frames, f.Pinned list ps qs
  waiting : 1 < frames.length → tree.HasGreedy grammar

/-- What a call behind the cut leaves: the cells `qs'` with the nodes `ns'`. The cells in front of
the cut stay, and so does the object. -/
structure Landed (h h' : Heap) (list list' : TokenList) (ps qs qs' : List Cell) (ns' : List Node) :
    Prop where
  head_eq : list'.head = list.head
  rep : Rep h' list' (ps ++ qs')
  shows_back : Shows qs' ns'
  moved : Moved h h' (list.head :: area (ps ++ qs)) (list.head :: area (ps ++ qs'))
  keeps : ∀ c ∈ leading qs, c ∈ leading qs'

variable {search : RegexSearch} {tree : LanguageTree}
variable {h h' : Heap} {list list' : TokenList} {text : Bytes} {grammar : Nat}
  {frames : List Frame}
  {ps qs qs' : List Cell} {xs ns ns' : List Node}

/-- The text that leads a list of cells is in it. -/
theorem leading_subset (qs : List Cell) : leading qs ⊆ qs := by
  cases qs with
  | nil => exact List.Subset.refl _
  | cons c cs =>
    rw [leading]
    split
    · exact List.cons_subset_cons c (List.nil_subset cs)
    · exact List.nil_subset _

/-- A syntax cell leads alone. -/
theorem leading_of_isSyntax {c : Cell} {cs : List Cell} (hc : c.tok.isSyntax = true) :
    leading (c :: cs) = [c] := by
  rw [leading, if_pos hc]

/-- A cell that leads is the first. -/
theorem eq_cons_of_mem_leading {c : Cell} : ∀ {qs : List Cell}, c ∈ leading qs → ∃ cs, qs = c :: cs
  | [], h => by simp [leading] at h
  | q :: qs, h => by
    rw [leading] at h
    split at h
    · exact ⟨qs, by rw [List.mem_singleton.mp h]⟩
    · simp at h

/-- Cells that show nodes have their tokens. -/
theorem Shows.map_tok {cs : List Cell} (hs : Shows cs ns) :
    cs.map (·.tok) = ns.map (·.tok) := by
  induction hs with
  | nil => rfl
  | cons hc _ ih => rw [List.map_cons, List.map_cons, hc.tok, ih]

/-- Cells and nodes that are cut at the same place. -/
theorem Shows.cut : ∀ {qk qr : List Cell} {k r : List Node}, qk.length = k.length →
    Shows (qk ++ qr) (k ++ r) → Shows qk k ∧ Shows qr r
  | [], _, [], _, _, hs => ⟨.nil, hs⟩
  | _ :: _, _, _ :: _, _, hlen, .cons hq hs =>
    have ⟨h₁, h₂⟩ := Shows.cut (Nat.succ.inj hlen) hs
    ⟨.cons hq h₁, h₂⟩

/-- A cut of the nodes is a cut of the cells. -/
theorem Shows.append_left {qs : List Cell} {k r : List Node} (hs : Shows qs (k ++ r)) :
    ∃ qk qr, qs = qk ++ qr ∧ Shows qk k ∧ Shows qr r :=
  ⟨qs.take k.length, qs.drop k.length, (List.take_append_drop _ _).symm,
    List.forall₂_take_append _ _ _ hs, List.forall₂_drop_append _ _ _ hs⟩

namespace Placed

/-- The nodes cover the text. -/
theorem width_eq (hp : Placed search tree h list text grammar frames ps qs xs ns) :
    width (xs ++ ns) = text.length :=
  hp.reached.width_eq

/-- No two neighbours are both a `Text`. -/
theorem separated (hp : Placed search tree h list text grammar frames ps qs xs ns) :
    Separated (xs ++ ns) :=
  separated_iff.mpr hp.reached.separated

/-- What an observer sees of a placed list is sound. -/
theorem sound (hp : Placed search tree h list text grammar frames ps qs xs ns) :
    Snapshot.Sound search tree ⟨h, list, text, grammar, frames⟩ (ps ++ qs) where
  rep := hp.rep
  reached := by
    rw [(show Shows _ _ from List.rel_append hp.shows_front hp.shows_back).map_tok]
    exact hp.reached
  frames f hf := by
    have hpins : pins list ps qs ⊆ list.head :: ptrs (ps ++ qs) := by
      refine List.cons_subset_cons _ (List.map_subset _ fun c hc => ?_)
      rw [List.mem_append] at hc ⊢
      exact hc.imp_right fun hc => leading_subset qs hc
    obtain ⟨h₁, h₂⟩ := hp.pinned f hf
    exact ⟨hpins h₁, fun p hq => hpins (h₂ p hq)⟩
  waiting := hp.waiting

/-- So is what an observer sees while the loop of the innermost call is at the cut. -/
theorem sound_at {start : TokenListPtr}
    (hp : Placed search tree h list text grammar (⟨start, none⟩ :: frames) ps qs xs ns) :
    Snapshot.Sound search tree ⟨h, list, text, grammar, ⟨start, some (Rep.back list qs)⟩ :: frames⟩
      (ps ++ qs) := by
  have hs := hp.sound
  refine { hs with frames := fun f hf => ?_ }
  rcases List.mem_cons.mp hf with rfl | hf
  · refine ⟨(hs.frames _ List.mem_cons_self).1, fun p hp => ?_⟩
    cases hp
    exact Rep.back_mem list ps qs
  · exact hs.frames f (List.mem_cons_of_mem _ hf)

/-- The cut moves forward over cells. -/
theorem advance {qk qr : List Cell} {k r : List Node}
    (hp : Placed search tree h list text grammar frames ps (qk ++ qr) xs (k ++ r))
    (hk : Shows qk k) (hr : Shows qr r) :
    Placed search tree h list text grammar frames (ps ++ qk) qr (xs ++ k) r where
  rep := by
    rw [List.append_assoc]
    exact hp.rep
  shows_front := List.rel_append hp.shows_front hk
  shows_back := hr
  reached := by
    rw [List.append_assoc]
    exact hp.reached
  waiting := hp.waiting
  pinned f hf := by
    -- A `Syntax` behind the old cut is in front of the new one, or still behind it.
    have hsub : pins list ps (qk ++ qr) ⊆ pins list (ps ++ qk) qr := by
      refine List.cons_subset_cons _ (List.map_subset _ fun c hc => ?_)
      cases qk with
      | nil => simpa using hc
      | cons q qk =>
        rcases List.mem_append.mp hc with hc | hc
        · simp [hc]
        · have hq : c ∈ leading [q] := hc
          have := leading_subset _ hq
          simp only [List.mem_singleton] at this
          simp [this]
    obtain ⟨h₁, h₂⟩ := hp.pinned f hf
    exact ⟨hsub h₁, fun p hq => hsub (h₂ p hq)⟩

/-- The frames of a rematch: the call that starts it waits at the `Syntax` behind the cut. -/
theorem nested {start : TokenListPtr} {q : Cell} (hq : q.tok.isSyntax = true)
    (hgreedy : tree.HasGreedy grammar)
    (hp : Placed search tree h list text grammar (⟨start, none⟩ :: frames) ps (q :: qs) xs ns) :
    Placed search tree h list text grammar
      (⟨Rep.front list ps, none⟩ :: ⟨start, some q.ptr⟩ :: frames) ps (q :: qs) xs ns := by
  refine { hp with pinned := fun f hf => ?_, waiting := fun _ => hgreedy }
  have hmem : ∀ p ∈ list.head :: ptrs ps, p ∈ pins list ps (q :: qs) := fun p hp => by
    rw [pins, ptrs, List.map_append]
    exact List.cons_subset_cons _ (List.subset_append_left _ _) hp
  rcases List.mem_cons.mp hf with rfl | hf
  · exact ⟨hmem _ (lastOf_mem _ _), fun p hp => by cases hp⟩
  · rcases List.mem_cons.mp hf with rfl | hf
    · refine ⟨(hp.pinned _ List.mem_cons_self).1, fun p hp => ?_⟩
      cases hp
      simp [pins, leading_of_isSyntax hq, ptrs]
    · exact hp.pinned f (List.mem_cons_of_mem _ hf)

/-- After a call behind the cut the list is still placed. -/
theorem landed {r r' : Option RematchOptions}
    (hp : Placed search tree h list text grammar frames ps qs xs ns)
    (hl : Landed h h' list list' ps qs qs' ns')
    (ho : Seq.Outcome search tree text grammar xs ns r ns' r') :
    Placed search tree h' list' text grammar frames ps qs' xs ns' where
  rep := hl.rep
  shows_front := hp.shows_front
  shows_back := hl.shows_back
  reached := hp.reached.rewrites ho.rewrites
  waiting := hp.waiting
  pinned f hf := by
    have hsub : pins list ps qs ⊆ pins list' ps qs' := by
      rw [pins, pins, hl.head_eq]
      refine List.cons_subset_cons _ (List.map_subset _ fun c hc => ?_)
      rw [List.mem_append] at hc ⊢
      exact hc.imp_right (hl.keeps c)
    obtain ⟨h₁, h₂⟩ := hp.pinned f hf
    exact ⟨hsub h₁, fun p hq => hsub (h₂ p hq)⟩

end Placed

namespace Landed

variable {h'' : Heap} {list'' : TokenList} {qs'' : List Cell} {ns'' : List Node}

/-- A list that nothing has changed has landed where it was. -/
theorem refl (hr : Rep h list (ps ++ qs)) (hs : Shows qs ns) :
    Landed h h list list ps qs qs ns where
  head_eq := rfl
  rep := hr
  shows_back := hs
  moved := .refl (List.Subset.refl _)
  keeps _ hc := hc

/-- Two operations one after the other land where the second does. -/
theorem trans (h₁ : Landed h h' list list' ps qs qs' ns')
    (h₂ : Landed h' h'' list' list'' ps qs' qs'' ns'') :
    Landed h h'' list list'' ps qs qs'' ns'' where
  head_eq := h₂.head_eq.trans h₁.head_eq
  rep := h₂.rep
  shows_back := h₂.shows_back
  moved := h₁.moved.trans (h₁.head_eq ▸ h₂.moved)
  keeps c hc := h₂.keeps c (h₁.keeps c hc)

/-- A call behind a later cut, seen from an earlier one. -/
theorem retreat {qk qr qr' : List Cell} {k r' : List Node}
    (hl : Landed h h' list list' (ps ++ qk) qr qr' r') (hk : Shows qk k) :
    Landed h h' list list' ps (qk ++ qr) (qk ++ qr') (k ++ r') where
  head_eq := hl.head_eq
  rep := by
    rw [← List.append_assoc]
    exact hl.rep
  shows_back := List.rel_append hk hl.shows_back
  moved := by
    rw [← List.append_assoc, ← List.append_assoc]
    exact hl.moved
  keeps c hc := by
    cases qk with
    | nil => exact hl.keeps c hc
    | cons q qk => exact hc

end Landed

/-! ### The searches -/

/-- A run over the heap and a run on sequences are in lockstep, and the events are safe. -/
abbrev Mirrors (search : RegexSearch) (tree : LanguageTree) {α β : Type} (R : α × Heap → β → Prop)
    (x : Traced Fault Event (α × Heap)) (y : Seq.Prog β) : Prop :=
  Simulates Event.handover (Event.Sound search tree) R x y

/-- Two values that belong together mirror each other. -/
theorem mirrors_pure {α β : Type} {R : α × Heap → β → Prop} {a : α} {b : β} (hab : R (a, h) b) :
    Mirrors search tree R ((pure a : Prog α).run h) (pure b) :=
  Simulates.pure hab

/-- Failing on a missing value is mirrored by the same fault. -/
theorem orRaise_mirrors {α : Type} (f : Fault) (o : Option α) :
    Mirrors search tree (fun a b => a = (b, h) ∧ o = some b) ((orRaise f o).run h)
      (Seq.orRaise f o) := by
  cases o with
  | some a => exact Simulates.pure ⟨rfl, rfl⟩
  | none => exact Simulates.raise f

/-- An event only the linked list logs. -/
theorem observe_mirrors {α β : Type} {R : α × Heap → β → Prop} {w : Event}
    {k : Unit × Heap → Traced Fault Event (α × Heap)} {y : Seq.Prog β} (hw : w.handover = none)
    (hs : w.Sound search tree) (hk : Mirrors search tree R (k ((), h)) y) :
    Mirrors search tree R ((Prog.emit w).run h >>= k) y :=
  Simulates.left (l := [w]) run_emit (by simpa using hw) (by simpa using hs) hk

/-- An event both log. -/
theorem handover_mirrors (w : Handover) :
    Mirrors search tree (fun a _ => a = ((), h)) ((Prog.emit (.inside w)).run h)
      (Traced.emit w) where
  result := rfl
  log := rfl
  events := by simp [run_emit, Event.Sound]

/-- Showing a list emits one event and changes nothing. -/
theorem run_see (c : Call) (list : TokenList) (frames : List Frame) :
    (c.see list frames).run h = pure (⟨h, list, c.text, c.grammar, frames⟩, h) := rfl

/-- A `Text` at hand, or a `Syntax`. -/
theorem Rep.payload_eq {cs : List Cell} {c : Cell} {n : Node} (hr : Rep h list cs) (hc : c ∈ cs)
    (hs : Sees c n) : c.payload.length = n.tok.length ∧ c.payload.isSyntax = n.tok.isSyntax ∧
      ∀ value, c.payload = .text value ↔ n.tok = .text value := by
  have ho := hr.owns c hc
  rw [← hs.tok]
  exact ⟨ho.length_tok, ho.isSyntax_tok, ho.text_iff⟩

/-- The node search walks along the same nodes. -/
theorem findNode_mirrors {start : Nat} : ∀ {fuel : Nat} (qk : List Cell) {qr : List Cell}
    {qc : Cell} {kept rest : List Node} {current : Node} {p : Nat},
      Rep h list (ps ++ (qk ++ qc :: qr)) →
    qk.length = kept.length → Sees qc current → Shows qr rest → start < p + width rest →
    Mirrors search tree (fun a b => a.2 = h ∧ ∃ qk' qc' qr', qk ++ qc :: qr = qk' ++ qc' :: qr' ∧
        qk'.length = b.1.length ∧ a.1 = (qc'.ptr, b.2.2.2))
      ((findNode start fuel qc.ptr p).run h) (Seq.findNode start fuel kept current rest p)
  | 0, _, _, _, _, _, _, _, _, _, _, _, _ => Simulates.raise _
  | fuel + 1, qk, qr, qc, kept, rest, current, p, hr, hlen, hqc, hqr, hlt => by
    unfold findNode Seq.findNode
    split
    · -- The offset is not reached, so there is a next node, on both levels.
      cases hqr with
      | nil => simp at hlt; omega
      | @cons q n qr rest hq hqr =>
        have hr₁ : Rep h list ((ps ++ qk) ++ qc :: q :: qr) := by simpa using hr
        obtain ⟨m, hm, -, hnext, -⟩ := hr₁.node_at
        have hr₂ : Rep h list ((ps ++ qk ++ [qc]) ++ q :: qr) := by simpa using hr
        obtain ⟨m', hm', -, -, hpl⟩ := hr₂.node_at
        have hlength := (hr₂.payload_eq (by simp) hq).1
        simp only [StateT.run_bind, run_node hm, pure_bind, hnext, Rep.back_cons, run_node hm', hpl,
          hlength]
        refine (findNode_mirrors (qk ++ [qc]) (by simpa using hr) (by simp [hlen]) hq hqr
          (by simp at hlt; omega)).mono fun a b hab => ?_
        obtain ⟨h₁, qk', qc', qr', h₂, h₃, h₄⟩ := hab
        exact ⟨h₁, qk', qc', qr', by simpa using h₂, h₃, h₄⟩
    · exact Simulates.pure ⟨rfl, qk, qc, qr, rfl, hlen, rfl⟩

/-- The loop over the affected nodes counts the same nodes. -/
theorem countAffected_mirrors {stop : Nat} : ∀ {fuel : Nat} (ks : List Cell) {cs : List Cell}
    {ns : List Node} {removeCount p : Nat}, Rep h list (ks ++ cs) → Shows cs ns →
    Mirrors search tree (fun a b => a = ((b.1, b.2.1), h))
      ((countAffected list.head stop fuel (Rep.back list cs) removeCount p).run h)
      (Seq.countAffected stop fuel ns removeCount p)
  | 0, _, _, _, _, _, _, _ => Simulates.raise _
  | fuel + 1, ks, cs, ns, removeCount, p, hr, hs => by
    cases hs with
    | nil =>
      have hback : Rep.back list [] = list.head := rfl
      rw [countAffected, Seq.countAffected, if_pos hback]
      exact Simulates.pure rfl
    | @cons c n cs ns hc hcs =>
      obtain ⟨m, hm, -, hnext, hpl⟩ := hr.node_at
      obtain ⟨hlength, hsyn, -⟩ := hr.payload_eq (by simp) hc
      rw [Rep.back_cons, countAffected, Seq.countAffected, if_neg hr.ptr_ne_head]
      simp only [StateT.run_bind, run_node hm, pure_bind, hpl, hlength, hsyn, hnext]
      split
      · exact countAffected_mirrors (ks ++ [c]) (by simpa using hr) hcs
      · exact Simulates.pure rfl

/-- The two searches find the same: the pointer on the one side is the address of the cell behind
the nodes passed over on the other. -/
inductive SameFind (list : TokenList) (qs : List Cell) : Located → Seq.Located → Prop
  | stop : SameFind list qs .stop .stop
  | skip {qk qr : List Cell} {qc : Cell} {kept rest : List Node} {current : Node} {pos : Nat}
      (cells : qs = qk ++ qc :: qr) (cut : qk.length = kept.length) :
      SameFind list qs (.skip qc.ptr pos) (.skip kept current rest pos)
  | found {qk qr : List Cell} {kept rest : List Node} {pos i removeCount : Nat} {str view : Bytes}
      (cells : qs = qk ++ qr) (cut : qk.length = kept.length) :
      SameFind list qs (.found (Rep.back list qr) pos str i view removeCount)
        (.found kept pos str i view removeCount rest)

/-- The search for a match on the heap finds what the one on nodes finds: each step to the next cell
is one to the next node. -/
theorem locate_mirrors {fuel : Nat} {p : Pattern} {value : Bytes} {c : Cell} {cs : List Cell}
    {n : Node} (hp : Placed search tree h list text grammar frames ps (c :: cs) xs (n :: ns)) :
    Mirrors search tree (fun a b => a.2 = h ∧ SameFind list (c :: cs) a.1 b)
      ((locate search fuel text list p c.ptr (width xs) value).run h)
      (Seq.locate search fuel text p n ns (width xs) value) := by
  obtain ⟨hcn, hcs⟩ := List.forall₂_cons.mp hp.shows_back
  obtain ⟨m, hm, -, -, hpl⟩ := hp.rep.node_at
  have hlength := (hp.rep.payload_eq (by simp) hcn).1
  have hw := hp.width_eq
  simp only [width_append, width_cons] at hw
  by_cases hg : p.greedy = true
  · simp only [locate, Seq.locate, hg, if_true]
    cases hit : p.matchText search (width xs) text with
    | none => exact mirrors_pure ⟨rfl, .stop⟩
    | some found =>
      obtain ⟨start, view⟩ := found
      dsimp only
      split
      · exact mirrors_pure ⟨rfl, .stop⟩
      · have hstart : start < width xs + n.tok.length + width ns := by omega
        have hlen : ([] : List Cell).length = ([] : List Node).length := rfl
        simp only [StateT.run_bind, run_node hm, pure_bind, hpl, hlength]
        refine Simulates.bind (findNode_mirrors [] hp.rep hlen hcn hcs hstart) fun a b hb hab => ?_
        obtain ⟨⟨ptr, q⟩, h'⟩ := a
        obtain ⟨kept, current, rest, q'⟩ := b
        obtain ⟨rfl, qk, qc, qr, hcells, hcut, hptr⟩ := hab
        obtain ⟨rfl, rfl⟩ := Prod.mk.inj hptr
        -- The cell at hand holds the node at hand.
        obtain ⟨hnodes, hq, hle, hq'⟩ := Seq.findNode_ok (width xs) (by simp)
          (by simpa using p.le_of_matchText hit) hb
        have hshows := hp.shows_back
        rw [List.nil_append] at hcells hnodes
        rw [hcells, hnodes] at hshows
        obtain ⟨hqk, hqr⟩ := Shows.cut hcut hshows
        obtain ⟨hqc, hqr⟩ := List.forall₂_cons.mp hqr
        have hr : Rep h' list ((ps ++ qk) ++ qc :: qr) := by
          rw [List.append_assoc, ← hcells]
          exact hp.rep
        obtain ⟨m', hm', -, -, hpl'⟩ := hr.node_at
        obtain ⟨hlength', hsyn', -⟩ := hr.payload_eq (by simp) hqc
        simp only [run_node hm', pure_bind, hpl', hlength', hsyn']
        split
        · exact mirrors_pure ⟨rfl, .skip hcells hcut⟩
        · simp only [StateT.run_bind]
          refine Simulates.bind
            (countAffected_mirrors (ps ++ qk) hr (List.forall₂_cons.mpr ⟨hqc, hqr⟩))
            fun a b _ hab => ?_
          obtain ⟨removeCount, q, rest'⟩ := b
          subst hab
          refine Simulates.bind (orRaise_mirrors _ _) fun a b _ hab => ?_
          obtain ⟨rfl, -⟩ := hab
          exact mirrors_pure ⟨rfl, .found hcells hcut⟩
  · simp only [locate, Seq.locate, hg]
    cases p.matchText search 0 value with
    | none => exact mirrors_pure ⟨rfl, .skip (List.nil_append _).symm rfl⟩
    | some found => exact mirrors_pure ⟨rfl, .found (List.nil_append (c :: cs)).symm rfl⟩

/-- The look at a cell is the look at the node that it shows. -/
theorem inspect_mirrors {fuel : Nat} {p : Pattern} {c : Cell} {cs : List Cell} {n : Node}
    (hp : Placed search tree h list text grammar frames ps (c :: cs) xs (n :: ns)) :
    Mirrors search tree (fun a b => a.2 = h ∧ SameFind list (c :: cs) a.1 b)
      ((inspect search fuel text list p c.ptr (width xs)).run h)
      (Seq.inspect search fuel text p n ns (width xs)) := by
  have hcn : Sees c n := (List.forall₂_cons.mp hp.shows_back).1
  obtain ⟨m, hm, -, -, hpl⟩ := hp.rep.node_at
  have htext := (hp.rep.payload_eq (by simp) hcn).2.2
  simp only [inspect, Seq.inspect, StateT.run_bind, run_node hm, pure_bind, hpl]
  cases htok : n.tok with
  | text value =>
    rw [(htext value).mpr htok]
    exact locate_mirrors hp
  | syn type children aliasName length =>
    cases hpay : c.payload with
    | text value => rw [(htext value).mp hpay] at htok; cases htok
    | sentinel => exact mirrors_pure ⟨rfl, .skip (List.nil_append (c :: cs)).symm rfl⟩
    | syn => exact mirrors_pure ⟨rfl, .skip (List.nil_append (c :: cs)).symm rfl⟩

/-! ### Writing a match -/

/-- The cells that hold a new `Text`, or none. -/
theorem addText_run {xs ys : List Cell} (hr : Rep h list (xs ++ ys)) (s : Bytes) :
    ∃ cs list' h', (addText list (Rep.front list xs) s).run h
        = pure ((Rep.front list (xs ++ cs), list'), h') ∧
      list'.head = list.head ∧ Rep h' list' (xs ++ (cs ++ ys)) ∧ Shows cs (Seq.textNode s) ∧
      Moved h h' (list.head :: area (xs ++ ys)) (list.head :: area (xs ++ (cs ++ ys))) := by
  unfold addText Seq.textNode
  split
  · exact ⟨[], list, h, by rw [List.append_nil]; rfl, rfl, hr, .nil, .refl (List.Subset.refl _)⟩
  · obtain ⟨h', hrun, hr', hm⟩ := hr.addAfterText_run s
    refine ⟨[⟨h.fresh, .text s, .text s, []⟩], { list with length := list.length + 1 }, h', ?_, rfl,
      hr', ?_, hm⟩
    · rw [hrun]
      simp [Rep.front, ptrs]
    · exact .cons ⟨rfl, fun l hl => by cases hl⟩ .nil

/-- Cutting a match out: the covered cells `seg` give way to the text before the match. -/
theorem cutOut_mirrors {seg rest : List Cell} {str view : Bytes} {i : Nat}
    (hr : Rep h list (ps ++ (seg ++ rest))) (hseg : seg ≠ []) :
    Mirrors search tree (fun a b => (a.1.2.2.1, a.1.2.2.2) = b ∧ a.1.2.1.head = list.head ∧
        ∃ cs, a.1.1 = Rep.front list (ps ++ cs) ∧ Rep a.2 a.1.2.1 (ps ++ (cs ++ rest)) ∧
          Shows cs (Seq.textNode b.1) ∧
          Moved h a.2 (list.head :: area (ps ++ (seg ++ rest)))
            (list.head :: area (ps ++ (cs ++ rest))))
      ((cutOut list (Rep.back list (seg ++ rest)) str i view seg.length).run h)
      (Seq.cutOut str i view) := by
  obtain ⟨c, tl, rfl⟩ := List.exists_cons_of_ne_nil hseg
  obtain ⟨m, hm, hprev, -, -⟩ := hr.node_at
  simp only [cutOut, Seq.cutOut, StateT.run_bind]
  refine Simulates.bind (orRaise_mirrors _ _) fun a b _ hab => ?_
  obtain ⟨rfl, -⟩ := hab
  refine Simulates.bind (orRaise_mirrors _ _) fun a' b' _ hab => ?_
  obtain ⟨rfl, -⟩ := hab
  obtain ⟨cs, list₁, h₁, hrun₁, hhead₁, hr₁, hs₁, hm₁⟩ := addText_run hr b
  rw [List.cons_append, Rep.back_cons]
  simp only [run_node hm, pure_bind, hprev, hrun₁]
  have hr₁' : Rep h₁ list₁ ((ps ++ cs) ++ ((c :: tl) ++ rest)) := by simpa using hr₁
  have hfront : Rep.front list (ps ++ cs) = Rep.front list₁ (ps ++ cs) := by
    rw [Rep.front, Rep.front, hhead₁]
  obtain ⟨h₂, hrun₂, hr₂, hm₂⟩ := hr₁'.removeRange_run
  rw [hfront]
  refine Simulates.left hrun₂ (fun w hw => ?_) (fun w hw => ?_) ?_
  · obtain ⟨c, -, rfl⟩ := List.mem_map.mp hw
    rfl
  · obtain ⟨c', hc', rfl⟩ := List.mem_map.mp hw
    -- The deleted node is a node of the list, so it is not the sentinel.
    have hnd := hr₁'.spine.nodup
    rintro he
    exact (List.nodup_cons.mp hnd).1 (he ▸ ptr_mem_area (by simp at hc' ⊢; tauto))
  · refine mirrors_pure ⟨rfl, hhead₁, cs, hfront.symm, by simpa using hr₂, hs₁, ?_⟩
    rw [← hhead₁] at hm₁ ⊢
    refine hm₁.trans ?_
    simpa using hm₂

/-- Pasting the match in: its `Syntax`, which takes over `children`, and the text behind it. The
moved-from list is new, and empty. -/
theorem pasteIn_run {rest cs : List Cell} {children : TokenList} (hr : Rep h list (ps ++ rest))
    (hc : Rep h children cs)
    (hdisj : ∀ q ∈ list.head :: area (ps ++ rest), q ∉ children.head :: area cs)
    (token : Bytes) (p : Pattern) (view a : Bytes) :
    ∃ (c : Cell) (as : List Cell) (list' movedFrom : TokenList) (h' : Heap),
      (pasteIn list (Rep.front list ps) token p view children a).run h
        = pure ((c.ptr, list', movedFrom), h') ∧
      list'.head = list.head ∧
      Sees c ⟨none, .syn token (cs.map (·.tok)) p.aliasName view.length⟩ ∧
      Shows as (Seq.textNode a) ∧
      Rep h' list' (ps ++ (c :: (as ++ rest))) ∧ Rep h' movedFrom [] ∧
      movedFrom.head ∉ list.head :: area (ps ++ (c :: (as ++ rest))) ∧
      Moved h h' (children.head :: area cs ++ list.head :: area (ps ++ rest))
        (movedFrom.head :: list.head :: area (ps ++ (c :: (as ++ rest)))) := by
  obtain ⟨c, movedFrom, h₁, hrun₁, -, htok, hr₁, hfrom₁, hnew₁, hm₁⟩ :=
    hr.addAfterSyntax_run hc hdisj token p.aliasName view.length
  have hr₁' : Rep h₁ { list with length := list.length + 1 } ((ps ++ [c]) ++ rest) := by
    simpa using hr₁
  have hfront : Rep.front { list with length := list.length + 1 } (ps ++ [c]) = c.ptr := by
    simp [Rep.front, ptrs]
  obtain ⟨as, list₂, h₂, hrun₂, hhead₂, hr₂, hs₂, hm₂⟩ := addText_run hr₁' a
  rw [hfront] at hrun₂
  simp only [List.append_assoc, List.singleton_append] at hr₂ hm₂
  have hnew : ∀ q ∈ movedFrom.head :: area [], q ∉ list.head :: area (ps ++ c :: rest) := by
    intro q hq
    rw [area_nil, List.mem_singleton] at hq
    rw [hq]
    exact hnew₁
  -- Writing the text leaves the moved-from list alone.
  refine ⟨c, as, list₂, movedFrom, h₂, ?_, hhead₂, ⟨htok, fun l hl => by cases hl⟩, hs₂, hr₂,
    hm₂.rep hfrom₁ hnew, hm₂.disjoint hfrom₁ hnew _ (by simp), ?_⟩
  · simp only [pasteIn, StateT.run_bind, hrun₁, pure_bind, hrun₂]
    rfl
  · refine hm₁.trans (hm₂.mono (List.subset_cons_self _ _) fun q hq => ?_)
    rcases List.mem_cons.mp hq with rfl | hq
    · exact Or.inr List.mem_cons_self
    · exact Or.inl hq

/-- A match is only found at a `Text`. -/
theorem leading_of_found {fuel pos i removeCount : Nat} {p : Pattern} {str view : Bytes}
    {q : Cell} {n : Node} {kept rest : List Node} (hqn : Sees q n)
    (hb : (Seq.inspect search fuel text p n ns (width xs)).result
      = .ok (.found kept pos str i view removeCount rest)) : leading (q :: qs) = [] := by
  rw [leading]
  split
  · rename_i hq
    rw [hqn.tok] at hq
    rw [Seq.inspect_of_syn hq] at hb
    cases hb
  · rfl

/-- The list after a match was written, cut in front of its `Syntax`. -/
theorem Placed.found {fuel pos i removeCount : Nat} {p : Pattern} {str view b a : Bytes}
    {q qc : Cell} {n syn : Node} {qk qb qa qrest : List Cell} {kept rest : List Node}
    {r r' : Option RematchOptions}
    (hp : Placed search tree h list text grammar frames ps (q :: qs) xs (n :: ns))
    (hb : (Seq.inspect search fuel text p n ns (width xs)).result
      = .ok (.found kept pos str i view removeCount rest))
    (ho : Seq.Outcome search tree text grammar xs (n :: ns) r
      (kept ++ Seq.textNode b ++ syn :: (Seq.textNode a ++ rest)) r')
    (hqk : Shows qk kept) (hqb : Shows qb (Seq.textNode b)) (hqc : Sees qc syn)
    (hqa : Shows qa (Seq.textNode a)) (hqrest : Shows qrest rest) (hhead : list'.head = list.head)
    (hr : Rep h' list' (ps ++ qk ++ qb ++ qc :: (qa ++ qrest))) :
    Placed search tree h' list' text grammar frames (ps ++ qk ++ qb) (qc :: (qa ++ qrest))
      (xs ++ (kept ++ Seq.textNode b)) (syn :: (Seq.textNode a ++ rest)) where
  rep := hr
  shows_front := by
    rw [List.append_assoc]
    exact List.rel_append hp.shows_front (List.rel_append hqk hqb)
  shows_back := .cons hqc (List.rel_append hqa hqrest)
  reached := by
    rw [List.append_assoc]
    exact hp.reached.rewrites ho.rewrites
  waiting := hp.waiting
  pinned f hf := by
    have hsub : pins list ps (q :: qs) ⊆ pins list' (ps ++ qk ++ qb) (qc :: (qa ++ qrest)) := by
      rw [pins, pins, hhead, leading_of_found (List.forall₂_cons.mp hp.shows_back).1 hb,
        List.append_nil]
      refine List.cons_subset_cons _ (List.map_subset _ fun c hc => ?_)
      simp [hc]
    obtain ⟨h₁, h₂⟩ := hp.pinned f hf
    exact ⟨hsub h₁, fun p hq => hsub (h₂ p hq)⟩

/-- The list `tokenize` starts with. -/
theorem Placed.new (search : RegexSearch) (tree : LanguageTree) (h : Heap) (text : Bytes)
    (grammar : Nat) :
    ∃ list h' cs, (TokenList.new text).run h = pure (list, h') ∧
      Moved h h' [] (list.head :: area cs) ∧
      Placed search tree h' list text grammar [⟨list.head, none⟩] [] cs []
        [⟨none, .text text⟩] := by
  obtain ⟨h', hrun, hr, hm⟩ := Rep.new_run h text
  refine ⟨⟨h.fresh, 1⟩, h', _, hrun, hm, ?_⟩
  exact { rep := hr, shows_front := .nil, shows_back := .cons ⟨rfl, fun l hl => by cases hl⟩ .nil
          reached := .start search tree text grammar, pinned := by simp [Frame.Pinned, pins]
          waiting := by simp }

/-- The list behind the nodes a turn passes over. -/
theorem Placed.skipped {fuel pos : Nat} {p : Pattern} {q qc : Cell} {n current : Node}
    {qk qr : List Cell} {kept rest : List Node}
    (hp : Placed search tree h list text grammar frames ps (q :: qs) xs (n :: ns))
    (hb : (Seq.inspect search fuel text p n ns (width xs)).result
      = .ok (.skip kept current rest pos))
    (hcells : q :: qs = qk ++ qc :: qr) (hcut : qk.length = kept.length) :
    (∃ m, h.cell qc.ptr = some m ∧ m.next = Rep.back list qr ∧
      m.payload.length = current.tok.length) ∧
    pos + current.tok.length = width (xs ++ (kept ++ [current])) ∧
    Shows (qk ++ [qc]) (kept ++ [current]) ∧
    Placed search tree h list text grammar frames (ps ++ (qk ++ [qc])) qr
      (xs ++ (kept ++ [current])) rest := by
  obtain ⟨hpos, -⟩ := Seq.skip_placed hp.width_eq hb
  obtain ⟨hns, -⟩ := (Seq.inspect_ok (by simpa using hp.width_eq) hb).skip_eq
  rw [hcells, hns, List.append_cons, List.append_cons kept] at hp
  obtain ⟨hqk, hqr⟩ := Shows.cut (by simp [hcut]) hp.shows_back
  have hr : Rep h list ((ps ++ qk) ++ qc :: qr) := by simpa using hp.rep
  obtain ⟨m, hm, -, hnext, hpl⟩ := hr.node_at
  have hqc : Sees qc current := (List.forall₂_cons.mp (Shows.cut hcut hqk).2).1
  refine ⟨⟨m, hm, hnext, ?_⟩, hpos, hqk, hp.advance hqk hqr⟩
  rw [hpl]
  exact (hr.payload_eq (by simp) hqc).1

/-- The moved-from list is destroyed, and the loop goes on behind the `Syntax` at the cut. -/
theorem Placed.past {q : Cell} {n : Node} {movedFrom : TokenList}
    (hp : Placed search tree h list text grammar frames ps (q :: qs) xs (n :: ns))
    (hfrom : Rep h movedFrom []) (hnew : movedFrom.head ∉ list.head :: area (ps ++ q :: qs)) :
    ∃ h' m, movedFrom.destroy.run h = pure ((), h') ∧ Freed h h' [movedFrom.head] ∧
      h'.cell q.ptr = some m ∧ m.next = Rep.back list qs ∧ m.payload.length = n.tok.length ∧
      Placed search tree h' list text grammar frames (ps ++ [q]) qs (xs ++ [n]) ns := by
  obtain ⟨h', hrun, hfreed⟩ := hfrom.destroy_run
  rw [area_nil] at hfreed
  have hkeep : ∀ p ∈ list.head :: area (ps ++ q :: qs), h'.cell p = h.cell p := by
    intro p hp
    refine hfreed.frame p fun hp' => hnew ?_
    rw [← List.mem_singleton.mp hp']
    exact hp
  have hp' : Placed search tree h' list text grammar frames ps (q :: qs) xs (n :: ns) :=
    { hp with rep := hp.rep.frame hkeep }
  obtain ⟨hqn, hqs⟩ := List.forall₂_cons.mp hp'.shows_back
  obtain ⟨m, hm, -, hnext, hpl⟩ := hp'.rep.node_at
  refine ⟨h', m, hrun, hfreed, hm, hnext, ?_, hp'.advance (.cons hqn .nil) hqs⟩
  rw [hpl]
  exact (hp'.rep.payload_eq (by simp) hqn).1

/-- The moved-from list is carried across a call. -/
theorem Landed.carries {movedFrom : TokenList} (hl : Landed h h' list list' ps qs qs' ns')
    (hfrom : Rep h movedFrom []) (hnew : movedFrom.head ∉ list.head :: area (ps ++ qs)) :
    Rep h' movedFrom [] ∧ movedFrom.head ∉ list'.head :: area (ps ++ qs') := by
  have hdisj : ∀ p ∈ movedFrom.head :: area [], p ∉ list.head :: area (ps ++ qs) := by
    intro p hp
    rw [area_nil, List.mem_singleton] at hp
    rw [hp]
    exact hnew
  refine ⟨hl.moved.rep hfrom hdisj, ?_⟩
  rw [hl.head_eq]
  exact hl.moved.disjoint hfrom hdisj _ List.mem_cons_self

section

variable (search : RegexSearch) (tree : LanguageTree)

/-- On sequences: the text before the match, the text after it, and the tokens of the match. -/
def Seq.writeMatch (fuel : Nat) (c : Seq.Call) (pattern : Pattern) (str : Bytes)
    (matchIndex : Nat) (view : Bytes) : Seq.Prog (Bytes × Bytes × List Tok) := do
  let (before, after) ← Seq.cutOut str matchIndex view
  let children ← Seq.tokenEntries search tree fuel c view pattern.inside
  return (before, after, children)

end

/-- The cells after a match was written: the cells `seg` behind `ps` gave way to the text before
the match `qb`, its `Syntax` `qc`, and the text after it `qa`. The moved-from list is new, and
empty. -/
structure Written (h : Heap) (list : TokenList) (ps seg rest : List Cell) (e : Entry) (p : Pattern)
    (view : Bytes) (a : (TokenListPtr × Bytes × TokenList × TokenList) × Heap)
    (b : Bytes × Bytes × List Tok) (qb : List Cell) (qc : Cell) (qa : List Cell) : Prop where
  ptr_eq : a.1.1 = qc.ptr
  before_eq : a.1.2.1 = b.1
  head_eq : a.1.2.2.1.head = list.head
  shows_before : Shows qb (Seq.textNode b.1)
  sees : Sees qc ⟨none, .syn e.token b.2.2 p.aliasName view.length⟩
  shows_after : Shows qa (Seq.textNode b.2.1)
  rep : Rep a.2 a.1.2.2.1 (ps ++ qb ++ qc :: (qa ++ rest))
  rep_from : Rep a.2 a.1.2.2.2 []
  from_new : a.1.2.2.2.head ∉ list.head :: area (ps ++ qb ++ qc :: (qa ++ rest))
  moved : Moved h a.2 (list.head :: area (ps ++ (seg ++ rest)))
    (a.1.2.2.2.head :: list.head :: area (ps ++ qb ++ qc :: (qa ++ rest)))

/-! ### The calls -/

/-- The two calls have the same arguments. -/
structure SameCall (c : Call) (c' : Seq.Call) : Prop where
  text : c.text = c'.text
  grammar : c.grammar = c'.grammar
  startPos : c.startPos = c'.startPos

/-- What the call on the one side has done, the call on the other has done. -/
theorem SameCall.outcome {c : Call} {c' : Seq.Call} {r r' : Option RematchOptions}
    (hc : SameCall c c') (ho : Seq.Outcome search tree c'.text c'.grammar xs ns r ns' r') :
    Seq.Outcome search tree c.text c.grammar xs ns r ns' r' := by
  rw [hc.text, hc.grammar]
  exact ho

/-- The frames of a call of `matchGrammar` outside its loop over the nodes. -/
def Call.outside (c : Call) : List Frame := ⟨c.startNode, none⟩ :: c.frames

/-- A new list in the heap holds the tokens. -/
def Holds (h : Heap) (a : TokenList × Heap) (toks : List Tok) : Prop :=
  ∃ cs, Rep a.2 a.1 cs ∧ cs.map (·.tok) = toks ∧ Moved h a.2 [] (a.1.head :: area cs)

section

variable (search tree)

/-- With `fuel`, the functions over the linked list run in lockstep with those on sequences. There
is one field for each of the functions that call each other. -/
structure Lockstep (fuel : Nat) : Prop where
  tokenize : ∀ {h text grammar}, Mirrors search tree (Holds h)
    ((tokenize search tree fuel text grammar).run h) (Seq.tokenize search tree fuel text grammar)
  tokenEntries : ∀ {h c c' view inside}, SameCall c c' → Mirrors search tree (Holds h)
    ((tokenEntries search tree fuel c view inside).run h)
    (Seq.tokenEntries search tree fuel c' view inside)
  matchGrammar : ∀ {h list c c' ps qs xs ns r}, SameCall c c' →
    c.startNode = Rep.front list ps → c.startPos = width xs → c'.before = ps.length →
    Placed search tree h list c.text c.grammar c.outside ps qs xs ns →
    Mirrors search tree (fun a b => a.1.2 = b.2 ∧ ∃ qs', Landed h a.2 list a.1.1 ps qs qs' b.1)
      ((matchGrammar search tree fuel c list r).run h) (Seq.matchGrammar search tree fuel c' ns r)
  matchPatterns : ∀ {h list c c' g es ps qs xs ns r}, SameCall c c' →
    tree.resolveGrammar c.grammar = some g → (∀ e ∈ es, e ∈ g.entries) →
    c.startNode = Rep.front list ps → c.startPos = width xs → c'.before = ps.length →
    Placed search tree h list c.text c.grammar c.outside ps qs xs ns →
    Mirrors search tree (fun a b => a.1.2 = b.2 ∧ ∃ qs', Landed h a.2 list a.1.1 ps qs qs' b.1)
      ((matchPatterns search tree fuel c es list r).run h)
      (Seq.matchPatterns search tree fuel c' es ns r)
  matchNodes : ∀ {h list c c' g e p ps qs xs ns pos before r}, SameCall c c' →
    tree.resolveGrammar c.grammar = some g → e ∈ g.entries →
    tree.resolvePattern e.pattern = some p → pos = width xs → before = ps.length →
    Placed search tree h list c.text c.grammar c.outside ps qs xs ns →
    Mirrors search tree (fun a b => a.1.1 = b.1 ∧ a.1.2.2 = b.2.2 ∧
        ∃ qs', Landed h a.2 list a.1.2.1 ps qs qs' b.2.1)
      ((matchNodes search tree fuel c e p (Rep.back list qs) pos list r).run h)
      (Seq.matchNodes search tree fuel c' e p before ns pos r)
  rematchRemoved : ∀ {h list c c' e ps q qs xs n ns pos before reach removeCount r}, SameCall c c' →
    q.tok.isSyntax = true → (1 < removeCount → tree.HasGreedy c.grammar) → pos = width xs →
    before = ps.length →
    Placed search tree h list c.text c.grammar c.outside ps (q :: qs) xs (n :: ns) →
    Mirrors search tree (fun a b => a.1.2 = b.2 ∧
        ∃ qs', Landed h a.2 list a.1.1 ps (q :: qs) (q :: qs') (n :: b.1))
      ((rematchRemoved search tree fuel c e q.ptr pos reach list r removeCount).run h)
      (Seq.rematchRemoved search tree fuel c' e before n ns pos reach r removeCount)

end

namespace Lockstep

variable {fuel : Nat} {c : Call} {c' : Seq.Call} {r : Option RematchOptions}

/-- A call of `tokenize` on the heap is mirrored, once the calls below are: the new list holds the
text. -/
theorem tokenize_succ (ih : Lockstep search tree fuel) {grammar : Nat} :
    Mirrors search tree (Holds h) ((Prisma.tokenize search tree (fuel + 1) text grammar).run h)
      (Seq.tokenize search tree (fuel + 1) text grammar) := by
  obtain ⟨list, h₁, cs, hrun₁, hm₁, hp⟩ := Placed.new search tree h text grammar
  rw [Prisma.tokenize, Seq.tokenize]
  simp only [StateT.run_bind, hrun₁, pure_bind]
  refine Simulates.bind
    (ih.matchGrammar (c := ⟨text, grammar, list.head, 0, []⟩) ⟨rfl, rfl, rfl⟩ rfl
    rfl rfl hp) fun a b _ hab => ?_
  obtain ⟨-, qs', hl⟩ := hab
  refine mirrors_pure ⟨qs', hl.rep, hl.shows_back.map_tok, ?_⟩
  rw [hl.head_eq]
  exact hm₁.trans hl.moved

/-- The children of a token on the heap are those of the call on nodes. -/
theorem tokenEntries_succ (ih : Lockstep search tree fuel) (hc : SameCall c c') {view : Bytes}
    {inside : Option Nat} :
    Mirrors search tree (Holds h) ((Prisma.tokenEntries search tree (fuel + 1) c view inside).run h)
      (Seq.tokenEntries search tree (fuel + 1) c' view inside) := by
  cases inside with
  | none =>
    obtain ⟨h₁, hrun₁, hr₁, hm₁⟩ := Rep.new_run h view
    rw [Prisma.tokenEntries, Seq.tokenEntries, hrun₁]
    exact Simulates.pure ⟨_, hr₁, rfl, hm₁⟩
  | some g =>
    rw [Prisma.tokenEntries, Seq.tokenEntries, hc.text, hc.grammar]
    simp only [StateT.run_bind]
    refine Simulates.bind (handover_mirrors _) fun a b _ hab => ?_
    subst hab
    exact ih.tokenize

/-- A call of `matchGrammar` on a list that represents nodes is mirrored by the one on the nodes. -/
theorem matchGrammar_succ (ih : Lockstep search tree fuel) (hc : SameCall c c')
    (hstart : c.startNode = Rep.front list ps) (hpos : c.startPos = width xs)
    (hbefore : c'.before = ps.length)
    (hp : Placed search tree h list c.text c.grammar c.outside ps qs xs ns) :
    Mirrors search tree (fun a b => a.1.2 = b.2 ∧ ∃ qs', Landed h a.2 list a.1.1 ps qs qs' b.1)
      ((Prisma.matchGrammar search tree (fuel + 1) c list r).run h)
      (Seq.matchGrammar search tree (fuel + 1) c' ns r) := by
  rw [Prisma.matchGrammar, Seq.matchGrammar]
  simp only [StateT.run_bind, run_see, pure_bind]
  refine observe_mirrors (w := .entered _) rfl ⟨_, hp.sound⟩ ?_
  rw [← hc.grammar]
  refine Simulates.bind (orRaise_mirrors _ _) fun a g hg hab => ?_
  obtain ⟨rfl, hg⟩ := hab
  rw [← bind_pure (Seq.matchPatterns _ _ _ _ _ _ _)]
  refine Simulates.bind (ih.matchPatterns hc hg (fun _ he => he) hstart hpos hbefore hp)
    fun a b hb hab => ?_
  obtain ⟨hr, qs', hl⟩ := hab
  have hout :=
    (Seq.sound fuel).matchPatterns xs (hc.grammar ▸ hg) (fun _ he => he) (hc.startPos ▸ hpos)
    (hc.text ▸ hp.width_eq) hb
  have hp' := hp.landed hl (hc.outcome hout)
  exact observe_mirrors (w := .left _) rfl ⟨_, hp'.sound⟩ (mirrors_pure ⟨hr, qs', hl⟩)

/-- One turn of the loop over the patterns on the heap is one on the nodes. -/
theorem matchPatterns_succ (ih : Lockstep search tree fuel) (hc : SameCall c c') {g : Grammar}
    {es : List Entry} (hg : tree.resolveGrammar c.grammar = some g) (hes : ∀ e ∈ es, e ∈ g.entries)
    (hstart : c.startNode = Rep.front list ps) (hpos : c.startPos = width xs)
    (hbefore : c'.before = ps.length)
    (hp : Placed search tree h list c.text c.grammar c.outside ps qs xs ns) :
    Mirrors search tree (fun a b => a.1.2 = b.2 ∧ ∃ qs', Landed h a.2 list a.1.1 ps qs qs' b.1)
      ((Prisma.matchPatterns search tree (fuel + 1) c es list r).run h)
      (Seq.matchPatterns search tree (fuel + 1) c' es ns r) := by
  cases es with
  | nil =>
    rw [Prisma.matchPatterns, Seq.matchPatterns]
    exact mirrors_pure ⟨rfl, qs, .refl hp.rep hp.shows_back⟩
  | cons e es =>
    rw [Prisma.matchPatterns, Seq.matchPatterns]
    split
    · exact mirrors_pure ⟨rfl, qs, .refl hp.rep hp.shows_back⟩
    · simp only [StateT.run_bind]
      refine Simulates.bind (orRaise_mirrors _ _) fun a p _ hab => ?_
      obtain ⟨rfl, hpat⟩ := hab
      refine Simulates.bind (orRaise_mirrors _ _) fun a _ _ hab => ?_
      obtain ⟨rfl, -⟩ := hab
      obtain ⟨n, hn, hnext⟩ := hp.rep.node_front
      rw [← hstart] at hn
      simp only [run_node hn, pure_bind, hnext, ← hc.startPos]
      have he : e ∈ g.entries := hes e List.mem_cons_self
      refine Simulates.bind (ih.matchNodes hc hg he hpat hpos hbefore hp) fun a b hb hab => ?_
      obtain ⟨hflow, hr, qs', hl⟩ := hab
      obtain ⟨⟨flow, list', r'⟩, h'⟩ := a
      obtain ⟨flow', ns', r''⟩ := b
      obtain rfl : flow = flow' := hflow
      obtain rfl : r' = r'' := hr
      cases flow with
      | returned => exact mirrors_pure ⟨rfl, qs', hl⟩
      | finished =>
        -- The next pattern starts from the list that this one has left.
        have hout := (Seq.sound fuel).matchNodes xs (hc.grammar ▸ hg) he hpat hpos
          (hc.text ▸ hp.width_eq) hb
        have hp' := hp.landed hl (hc.outcome hout)
        have hfront : Rep.front list' ps = Rep.front list ps := by
          rw [Rep.front, Rep.front, hl.head_eq]
        refine (ih.matchPatterns hc hg (fun e he => hes e (List.mem_cons_of_mem _ he))
          (hstart.trans hfront.symm) hpos hbefore hp').mono fun a b hab => ?_
        obtain ⟨hr', qs'', hl'⟩ := hab
        exact ⟨hr', qs'', hl.trans hl'⟩

/-- Matching again what was removed, on the heap and on the nodes. The call begins in front of the
token, at the position where the token is. -/
theorem rematchRemoved_succ (ih : Lockstep search tree fuel) (hc : SameCall c c') {e : Entry}
    {q : Cell} {n : Node} {pos before reach removeCount : Nat} (hq : q.tok.isSyntax = true)
    (hgreedy : 1 < removeCount → tree.HasGreedy c.grammar) (hpos : pos = width xs)
    (hbefore : before = ps.length)
    (hp : Placed search tree h list c.text c.grammar c.outside ps (q :: qs) xs (n :: ns)) :
    Mirrors search tree (fun a b => a.1.2 = b.2 ∧
        ∃ qs', Landed h a.2 list a.1.1 ps (q :: qs) (q :: qs') (n :: b.1))
      ((Prisma.rematchRemoved search tree (fuel + 1) c e q.ptr pos reach list r removeCount).run h)
      (Seq.rematchRemoved search tree (fuel + 1) c' e before n ns pos reach r removeCount) := by
  rw [Prisma.rematchRemoved, Seq.rematchRemoved]
  split
  · rename_i hcount
    obtain ⟨m, hm, hprev, -, -⟩ := hp.rep.node_at
    simp only [StateT.run_bind, run_node hm, pure_bind, hprev]
    have hcall : SameCall ⟨c.text, c.grammar, Rep.front list ps, pos, c.at q.ptr⟩
      ⟨c'.text, c'.grammar, before, pos⟩ := ⟨hc.text, hc.grammar, rfl⟩
    refine Simulates.bind (ih.matchGrammar hcall rfl hpos hbefore (hp.nested hq (hgreedy hcount)))
      fun a b hb hab => ?_
    obtain ⟨⟨list', nested⟩, h'⟩ := a
    obtain ⟨ns', nested'⟩ := b
    obtain ⟨rfl, qs', hl⟩ := hab
    -- The `Syntax` behind the cut is still there, on both levels.
    obtain ⟨qs'', rfl⟩ := eq_cons_of_mem_leading (hl.keeps q (by simp [leading_of_isSyntax hq]))
    have hn : n.tok.isSyntax = true := by
      rw [← (List.forall₂_cons.mp hp.shows_back).1.tok]
      exact hq
    have hout := (Seq.sound fuel).matchGrammar xs (c := ⟨c'.text, c'.grammar, before, pos⟩) hpos
      (hc.text ▸ hp.width_eq) hb
    obtain ⟨tl, rfl⟩ := hout.keeps n ns rfl hn
    exact mirrors_pure ⟨rfl, qs'', hl⟩
  · exact mirrors_pure ⟨rfl, qs, .refl hp.rep hp.shows_back⟩

/-- The loop passes over nodes. -/
theorem skip_step (ih : Lockstep search tree fuel) (hc : SameCall c c') {g : Grammar} {e : Entry}
    {p : Pattern} (hg : tree.resolveGrammar c.grammar = some g) (he : e ∈ g.entries)
    (hpat : tree.resolvePattern e.pattern = some p) {q qc : Cell} {n current : Node}
    {qk qr : List Cell} {kept rest : List Node} {pos : Nat}
    (hp : Placed search tree h list c.text c.grammar c.outside ps (q :: qs) xs (n :: ns))
    (hb : (Seq.inspect search fuel c'.text p n ns (width xs)).result
      = .ok (.skip kept current rest pos))
    (hcells : q :: qs = qk ++ qc :: qr) (hcut : qk.length = kept.length) :
    Mirrors search tree (fun a b => a.1.1 = b.1 ∧ a.1.2.2 = b.2.2 ∧
        ∃ qs', Landed h a.2 list a.1.2.1 ps (q :: qs) qs' b.2.1)
      ((do
        let n ← node qc.ptr
        Prisma.matchNodes search tree fuel c e p n.next (pos + n.payload.length) list r).run h)
      (do
        let (flow, nodes, r) ← Seq.matchNodes search tree fuel c' e p (ps.length + kept.length + 1)
          rest (pos + current.tok.length) r
        return (flow, kept ++ current :: nodes, r)) := by
  rw [← hc.text] at hb
  -- The nodes that `inspect` has passed go to the front part of the list.
  obtain ⟨⟨m, hm, hnext, hlength⟩, hpos, hqk, hp'⟩ := hp.skipped hb hcells hcut
  simp only [StateT.run_bind, run_node hm, pure_bind, hnext, hlength]
  refine Simulates.map_right (ih.matchNodes hc hg he hpat hpos (by simp [hcut]; omega) hp')
    fun a b _ hab => ?_
  obtain ⟨hflow, hr', qs', hl⟩ := hab
  have := hl.retreat hqk
  rw [hcells]
  refine ⟨hflow, hr', qk ++ qc :: qs', ?_⟩
  simpa using this

/-- What the loop does behind the `Syntax` it has written: the rematch, the destructor of the
moved-from list, and the turns that follow. -/
theorem behind_step (ih : Lockstep search tree fuel) (hc : SameCall c c') {g : Grammar} {e : Entry}
    {p : Pattern} (hg : tree.resolveGrammar c.grammar = some g) (he : e ∈ g.entries)
    (hpat : tree.resolvePattern e.pattern = some p) {q : Cell} {n : Node} {k : List Node}
    {movedFrom : TokenList} {pos before reach len : Nat} (removeCount : Nat)
    (hgreedy : 1 < removeCount → tree.HasGreedy c.grammar)
    (hp : Placed search tree h list c.text c.grammar c.outside ps (q :: qs) xs (n :: ns))
    (hq : q.tok.isSyntax = true)
    (hfrom : Rep h movedFrom []) (hnew : movedFrom.head ∉ list.head :: area (ps ++ q :: qs))
    (hpos : pos = width xs) (hbefore : before = ps.length) (hreach : reach ≤ c.text.length)
    (hlen : n.tok.length = len) :
    Mirrors search tree
      (fun a b => a.1.1 = b.1 ∧ a.1.2.2 = b.2.2 ∧ ∃ qs' ns', b.2.1 = k ++ n :: ns' ∧
        a.1.2.1.head = list.head ∧ Rep a.2 a.1.2.1 (ps ++ q :: qs') ∧ Shows qs' ns' ∧
        Moved h a.2 (movedFrom.head :: list.head :: area (ps ++ q :: qs))
          (list.head :: area (ps ++ q :: qs')))
      ((do
        let (tokenList, rematch) ←
          Prisma.rematchRemoved search tree fuel c e q.ptr pos reach list r removeCount
        movedFrom.destroy
        let n ← node q.ptr
        Prisma.matchNodes search tree fuel c e p n.next (pos + n.payload.length) tokenList
          rematch).run h)
      (do
        let (rest, rematch) ←
          Seq.rematchRemoved search tree fuel c' e before n ns pos reach r removeCount
        let (flow, nodes, rematch) ←
          Seq.matchNodes search tree fuel c' e p (before + 1) rest (pos + len) rematch
        return (flow, k ++ n :: nodes, rematch)) := by
  simp only [StateT.run_bind]
  refine Simulates.bind (ih.rematchRemoved hc hq hgreedy hpos hbefore hp) fun a b hb hab => ?_
  obtain ⟨⟨list₁, r₁⟩, h₁⟩ := a
  obtain ⟨ns₁, r₁'⟩ := b
  obtain ⟨rfl, qs₁, hl⟩ := hab
  have hn : n.tok.isSyntax = true := by
    rw [← (List.forall₂_cons.mp hp.shows_back).1.tok]
    exact hq
  have hw := hp.width_eq
  rw [hc.text] at hw hreach
  have hout := (Seq.sound fuel).rematchRemoved xs hn hpos hreach hw hb
  have hp₁ := hp.landed hl (hc.outcome hout)
  -- The moved-from list is carried across the rematch, and destroyed.
  obtain ⟨hfrom₁, hnew₁⟩ := hl.carries hfrom hnew
  obtain ⟨h₂, m, hrun₂, hfreed₂, hm, hnext, hlength, hp₃⟩ := hp₁.past hfrom₁ hnew₁
  simp only [hrun₂, pure_bind, run_node hm, hnext, hlength, hlen]
  refine Simulates.map_right (ih.matchNodes hc hg he hpat (by simp [hpos, hlen])
    (by simp [hbefore]) hp₃) fun a b _ hab => ?_
  obtain ⟨hflow, hr', qs₃, hl₃⟩ := hab
  have hrep₃ := hl₃.rep
  have hmoved₃ := hl₃.moved
  rw [List.append_assoc, List.singleton_append] at hrep₃ hmoved₃
  rw [List.append_assoc, List.singleton_append, hl.head_eq] at hmoved₃
  refine ⟨hflow, hr', qs₃, b.2.1, rfl, hl₃.head_eq.trans hl.head_eq, hrep₃, hl₃.shows_back, ?_⟩
  have hmoved₁ : Moved h h₁ (movedFrom.head :: list.head :: area (ps ++ q :: qs))
      (movedFrom.head :: list.head :: area (ps ++ q :: qs₁)) := by
    refine hl.moved.mono (List.subset_cons_self _ _) fun r hr => ?_
    rcases List.mem_cons.mp hr with rfl | hr
    · exact Or.inr List.mem_cons_self
    · exact Or.inl hr
  refine (hmoved₁.trans
    ⟨Nat.le_of_eq hfreed₂.fresh_eq.symm, fun r _ hr => ?_, fun r hr => ?_⟩).trans
    hmoved₃
  · exact hfreed₂.frame r fun hr' => hr (List.mem_cons.mpr (Or.inl (List.mem_singleton.mp hr')))
  · exact Or.inl (List.mem_cons_of_mem _ hr)

/-- Both levels write a match in the same way. -/
theorem writeMatch_mirrors (ih : Lockstep search tree fuel) (hc : SameCall c c') (e : Entry)
    (p : Pattern) {seg rest : List Cell} {str view : Bytes} {i : Nat}
    (hr : Rep h list (ps ++ (seg ++ rest))) (hseg : seg ≠ []) :
    Mirrors search tree (fun a b => ∃ qb qc qa, Written h list ps seg rest e p view a b qb qc qa)
      ((writeMatch search tree fuel c e p list (Rep.back list (seg ++ rest)) str i view
        seg.length).run h)
      (Seq.writeMatch search tree fuel c' p str i view) := by
  simp only [writeMatch, Seq.writeMatch, StateT.run_bind]
  refine Simulates.bind (cutOut_mirrors hr hseg) fun a ba _ hab => ?_
  obtain ⟨⟨removeFrom, list₁, b', a'⟩, h₁⟩ := a
  obtain ⟨b, a⟩ := ba
  obtain ⟨hba, hhead₁, qb, hfront, hr₁, hqb, hm₁⟩ := hab
  obtain ⟨rfl, rfl⟩ := Prod.mk.inj hba
  refine Simulates.bind (ih.tokenEntries hc) fun a toks _ hab => ?_
  obtain ⟨children, h₂⟩ := a
  obtain ⟨cs, hcs, rfl, hm₂⟩ := hab
  rw [← List.append_assoc] at hr₁
  have hr₂ := hm₂.rep hr₁ (by simp)
  obtain ⟨qc, qa, list₂, movedFrom, h₃, hrun₃, hhead₃, hqc, hqa, hr₃, hfrom₃, hnew₃, hm₃⟩ :=
    pasteIn_run hr₂ hcs (hm₂.disjoint hr₁ (by simp)) e.token p view a'
  have hfront₁ : Rep.front list (ps ++ qb) = Rep.front list₁ (ps ++ qb) := by
    rw [Rep.front, Rep.front, hhead₁]
  obtain rfl : removeFrom = Rep.front list (ps ++ qb) := hfront
  simp only [hfront₁, hrun₃, pure_bind]
  refine mirrors_pure ⟨qb, qc, qa, rfl, rfl, hhead₃.trans hhead₁, hqb, hqc, hqa, hr₃, hfrom₃,
    hhead₁ ▸ hnew₃, ?_⟩
  -- The tokens of the match are new, and the `Syntax` takes them over.
  rw [hhead₁, List.append_assoc ps qb rest] at hm₃
  have hm₁₂ := hm₁.trans (hm₂.mono (G := list.head :: area (ps ++ (qb ++ rest)))
    (List.nil_subset _) fun q hq => (List.mem_append.mp hq).imp_right fun hq => hq)
  exact hm₁₂.trans hm₃

/-- What a match is cut out of: the cells passed over `qk` are followed by the cells of the run. -/
theorem run_cells {g : Grammar} {e : Entry} {p : Pattern}
    (hg : tree.resolveGrammar grammar = some g) (he : e ∈ g.entries)
    (hpat : tree.resolvePattern e.pattern = some p) {q : Cell} {n : Node} {qk qr : List Cell}
    {kept rest : List Node} {pos i removeCount : Nat} {str view : Bytes}
    (hp : Placed search tree h list text grammar frames ps (q :: qs) xs (n :: ns))
    (hb : (Seq.inspect search fuel text p n ns (width xs)).result
      = .ok (.found kept pos str i view removeCount rest))
    (hcells : q :: qs = qk ++ qr) (hcut : qk.length = kept.length) :
    ∃ seg qseg qrest, n :: ns = kept ++ (seg ++ rest) ∧ pos = width xs + width kept ∧
      Found search p text pos seg rest str i view ∧ qr = qseg ++ qrest ∧ Shows qk kept ∧
      Shows qseg seg ∧ Shows qrest rest ∧ qseg ≠ [] ∧ qseg.length = removeCount ∧
      Rep h list ((ps ++ qk) ++ (qseg ++ qrest)) ∧ (1 < removeCount → tree.HasGreedy grammar) := by
  obtain ⟨seg, hns, hpos, hcount, hfound⟩ := Seq.inspect_ok (by simpa using hp.width_eq) hb
  have hshows := hp.shows_back
  rw [hcells, hns] at hshows
  obtain ⟨hqk, hqr⟩ := Shows.cut hcut hshows
  obtain ⟨qseg, qrest, rfl, hqseg, hqrest⟩ := hqr.append_left
  refine ⟨seg, qseg, qrest, hns, hpos, hfound, rfl, hqk, hqseg, hqrest, ?_, ?_, ?_, fun hlt => ?_⟩
  · rintro rfl
    obtain ⟨l, value, tl, hseg⟩ := hfound.starts
    rw [hseg] at hqseg
    cases hqseg
  · rw [hcount, hqseg.length_eq]
  · rw [List.append_assoc, ← hcells]
    exact hp.rep
  · -- Only a greedy match covers more than one node.
    exact ⟨g, hg, e, he, p, hpat, hfound.greedy_of_length (hcount ▸ hlt)⟩

/-- The list after a match was written is placed, and the `Syntax` lies where the loop goes on. -/
theorem placed_written (hc : SameCall c c') {g : Grammar} {e : Entry} {p : Pattern}
    (hg : tree.resolveGrammar c.grammar = some g) (he : e ∈ g.entries)
    (hpat : tree.resolvePattern e.pattern = some p) {q qc : Cell} {n : Node}
    {qk qseg qrest qb qa : List Cell} {kept rest : List Node} {pos i removeCount : Nat}
    {str view : Bytes} {a : (TokenListPtr × Bytes × TokenList × TokenList) × Heap}
    {w : Bytes × Bytes × List Tok}
    (hp : Placed search tree h list c.text c.grammar c.outside ps (q :: qs) xs (n :: ns))
    (hb : (Seq.inspect search fuel c'.text p n ns (width xs)).result
      = .ok (.found kept pos str i view removeCount rest))
    (hqk : Shows qk kept) (hqrest : Shows qrest rest)
    (hw : (Seq.writeMatch search tree fuel c' p str i view).result = .ok w)
    (hwr : Written h list (ps ++ qk) qseg qrest e p view a w qb qc qa) :
    Placed search tree a.2 a.1.2.2.1 c.text c.grammar c.outside (ps ++ qk ++ qb)
        (qc :: (qa ++ qrest)) (xs ++ (kept ++ Seq.textNode w.1))
        (⟨none, .syn e.token w.2.2 p.aliasName view.length⟩ :: (Seq.textNode w.2.1 ++ rest)) ∧
      pos + w.1.length = width (xs ++ (kept ++ Seq.textNode w.1)) ∧
      pos + str.length ≤ c.text.length ∧
      ps.length + (kept ++ Seq.textNode w.1).length = (ps ++ qk ++ qb).length := by
  obtain ⟨⟨_, _⟩, hcut, hw⟩ := Traced.bind_result_ok.mp hw
  obtain ⟨children, hentries, hw⟩ := Traced.bind_result_ok.mp hw
  cases hw
  have hwidth := hp.width_eq
  rw [hc.text] at hwidth
  -- The sequence with the match is one the code can come to, before any rematch.
  have hout :=
    (Seq.sound fuel).written (r := none) (hc.grammar ▸ hg) he hpat hwidth hb hcut hentries
  have hp' := hp.found (hc.text ▸ hb) (hc.outcome hout) hqk hwr.shows_before hwr.sees
    hwr.shows_after hqrest hwr.head_eq hwr.rep
  obtain ⟨hpos, hreach, -⟩ := Seq.found_placed
    ⟨none, .syn e.token children p.aliasName view.length⟩ hwidth hb hcut rfl
  refine ⟨hp', hpos, hc.text ▸ hreach, ?_⟩
  rw [List.append_assoc, List.length_append, List.length_append, List.length_append,
    hqk.length_eq, hwr.shows_before.length_eq]

/-- The loop writes a match. -/
theorem found_step (ih : Lockstep search tree fuel) (hc : SameCall c c') {g : Grammar} {e : Entry}
    {p : Pattern} (hg : tree.resolveGrammar c.grammar = some g) (he : e ∈ g.entries)
    (hpat : tree.resolvePattern e.pattern = some p) {q : Cell} {n : Node} {qk qr : List Cell}
    {kept rest : List Node} {pos i removeCount : Nat} {str view : Bytes}
    (hp : Placed search tree h list c.text c.grammar c.outside ps (q :: qs) xs (n :: ns))
    (hb : (Seq.inspect search fuel c'.text p n ns (width xs)).result
      = .ok (.found kept pos str i view removeCount rest))
    (hcells : q :: qs = qk ++ qr) (hcut : qk.length = kept.length) :
    Mirrors search tree (fun a b => a.1.1 = b.1 ∧ a.1.2.2 = b.2.2 ∧
        ∃ qs', Landed h a.2 list a.1.2.1 ps (q :: qs) qs' b.2.1)
      ((do
        let (currentNode, before, tokenList, entries) ←
          writeMatch search tree fuel c e p list (Rep.back list qr) str i view removeCount
        let (tokenList, rematch) ←
          Prisma.rematchRemoved search tree fuel c e currentNode (pos + before.length)
            (pos + str.length) tokenList (RematchOptions.extend r (pos + str.length)) removeCount
        entries.destroy
        let n ← node currentNode
        Prisma.matchNodes search tree fuel c e p n.next (pos + before.length + n.payload.length)
          tokenList rematch).run h)
      (do
        let (b, a, children) ← Seq.writeMatch search tree fuel c' p str i view
        let (rest, rematch) ←
          Seq.rematchRemoved search tree fuel c' e (ps.length + (kept ++ Seq.textNode b).length)
            ⟨none, .syn e.token children p.aliasName view.length⟩ (Seq.textNode a ++ rest)
            (pos + b.length) (pos + str.length)
            (RematchOptions.extend r (pos + str.length)) removeCount
        let (flow, nodes, rematch) ←
          Seq.matchNodes search tree fuel c' e p
            (ps.length + (kept ++ Seq.textNode b).length + 1) rest (pos + b.length + view.length)
            rematch
        return (flow, kept ++ Seq.textNode b ++
          ⟨none, .syn e.token children p.aliasName view.length⟩ :: nodes, rematch)) := by
  obtain ⟨seg, qseg, qrest, hns, hpos, hfound, rfl, hqk, hqseg, hqrest, hseg, rfl, hr, hgreedy⟩ :=
    run_cells hg he hpat hp (hc.text ▸ hb) hcells hcut
  rw [StateT.run_bind]
  refine Simulates.bind (ih.writeMatch_mirrors hc e p hr hseg) fun a w hw hab => ?_
  obtain ⟨qb, qc, qa, hwr⟩ := hab
  obtain ⟨hp₃, hbpos, hreach, hlen⟩ := placed_written hc hg he hpat hp hb hqk hqrest hw hwr
  obtain ⟨⟨ptr, before, list₃, movedFrom⟩, h₃⟩ := a
  obtain rfl : ptr = qc.ptr := hwr.ptr_eq
  obtain rfl : before = w.1 := hwr.before_eq
  have hstep := ih.behind_step (k := kept ++ Seq.textNode w.1)
    (r := RematchOptions.extend r (pos + str.length)) hc hg he hpat qseg.length hgreedy hp₃
    (by rw [hwr.sees.tok]; rfl) hwr.rep_from (hwr.head_eq ▸ hwr.from_new) hbpos hlen hreach rfl
  refine hstep.mono fun a b hab => ?_
  obtain ⟨hflow, hr', qs', ns', hbs, hhead₄, hr₄, hqs', hm₄⟩ := hab
  have hhead := hhead₄.trans hwr.head_eq
  have hmoved : Moved h a.2 (list.head :: area (ps ++ qk ++ (qseg ++ qrest)))
      (list.head :: area (ps ++ qk ++ qb ++ qc :: qs')) := by
    -- The moved-from list is given up again.
    have hm₃ := hwr.moved
    have hhead₃ : list₃.head = list.head := hwr.head_eq
    rw [hhead₃] at hm₄
    exact hm₃.trans hm₄
  refine ⟨hflow, hr', qk ++ (qb ++ qc :: qs'), hhead, ?_, ?_, ?_, ?_⟩
  · simpa using hr₄
  · rw [hbs, List.append_assoc]
    exact List.rel_append hqk (List.rel_append hwr.shows_before (.cons hwr.sees hqs'))
  · rw [hcells]
    simpa using hmoved
  · rw [leading_of_found (List.forall₂_cons.mp hp.shows_back).1 (hc.text ▸ hb)]
    simp

/-- One turn of the loop over the nodes on the heap is one on the nodes: what is deleted and
inserted in the list is what is cut out and put in there. -/
theorem matchNodes_succ (ih : Lockstep search tree fuel) (hc : SameCall c c') {g : Grammar}
    {e : Entry} {p : Pattern} {pos before : Nat} (hg : tree.resolveGrammar c.grammar = some g)
    (he : e ∈ g.entries) (hpat : tree.resolvePattern e.pattern = some p) (hpos : pos = width xs)
    (hbefore : before = ps.length)
    (hp : Placed search tree h list c.text c.grammar c.outside ps qs xs ns) :
    Mirrors search tree (fun a b => a.1.1 = b.1 ∧ a.1.2.2 = b.2.2 ∧
        ∃ qs', Landed h a.2 list a.1.2.1 ps qs qs' b.2.1)
      ((Prisma.matchNodes search tree (fuel + 1) c e p (Rep.back list qs) pos list r).run h)
      (Seq.matchNodes search tree (fuel + 1) c' e p before ns pos r) := by
  have hstay : Landed h h list list ps qs qs ns := .refl hp.rep hp.shows_back
  rw [matchNodes_eq]
  simp only [StateT.run_bind, run_see, pure_bind]
  refine observe_mirrors (w := .loopHead _) rfl ⟨_, hp.sound_at⟩ ?_
  subst hpos hbefore
  cases qs with
  | nil =>
    obtain rfl := List.forall₂_nil_left_iff.mp hp.shows_back
    have hback : Rep.back list [] = list.head := rfl
    rw [Seq.matchNodes, if_pos hback]
    exact mirrors_pure ⟨rfl, rfl, [], hstay⟩
  | cons q qs =>
    obtain ⟨n, ns, hqn, hqs, rfl⟩ := List.forall₂_cons_left_iff.mp hp.shows_back
    have hlength : list.length = ps.length + (n :: ns).length := by
      rw [hp.rep.length_eq, List.length_append, hp.shows_back.length_eq]
    -- Both loops ask the same three questions, and the second goes by the length of the list.
    rw [Seq.matchNodes, Rep.back_cons, if_neg hp.rep.ptr_ne_head, hlength, ← hc.text]
    by_cases hreached : RematchOptions.isReached r (width xs) = true
    · rw [if_pos hreached, if_pos hreached]
      exact mirrors_pure ⟨rfl, rfl, _, hstay⟩
    · rw [if_neg hreached, if_neg hreached]
      by_cases habort : c.text.length < ps.length + (n :: ns).length
      · rw [if_pos habort, if_pos habort]
        simp only [StateT.run_bind, run_see, pure_bind]
        have hlt : c.text.length < (ps ++ q :: qs).length := by
          rwa [List.length_append, hp.shows_back.length_eq]
        exact observe_mirrors (w := .aborted _) rfl ⟨_, hp.sound_at, hlt⟩
          (mirrors_pure ⟨rfl, rfl, _, hstay⟩)
      · rw [if_neg habort, if_neg habort]
        simp only [StateT.run_bind]
        refine Simulates.bind (inspect_mirrors hp) fun a b hb hab => ?_
        obtain ⟨a, h⟩ := a
        obtain ⟨rfl, hsame⟩ := hab
        rw [hc.text] at hb
        cases hsame with
        | stop => exact mirrors_pure ⟨rfl, rfl, _, hstay⟩
        | skip hcells hcut => exact ih.skip_step hc hg he hpat hp hb hcells hcut
        | found hcells hcut =>
          have hfound := ih.found_step (r := r) hc hg he hpat hp hb hcells hcut
          simp only [Seq.writeMatch, bind_assoc, pure_bind] at hfound
          exact hfound

end Lockstep

/-- The linked list follows the sequence. -/
theorem mirrors : ∀ fuel, Lockstep search tree fuel
  | 0 =>
    { tokenize := by
        intro h text grammar
        rw [Prisma.tokenize, Seq.tokenize]
        exact Simulates.raise _
      tokenEntries := fun _ => by
        rw [Prisma.tokenEntries, Seq.tokenEntries]
        exact Simulates.raise _
      matchGrammar := fun _ _ _ _ _ => by
        rw [Prisma.matchGrammar, Seq.matchGrammar]
        exact Simulates.raise _
      matchPatterns := fun _ _ _ _ _ _ _ => by
        rw [Prisma.matchPatterns, Seq.matchPatterns]
        exact Simulates.raise _
      matchNodes := fun _ _ _ _ _ _ _ => by
        rw [Prisma.matchNodes, Seq.matchNodes]
        exact Simulates.raise _
      rematchRemoved := fun _ _ _ _ _ _ => by
        rw [Prisma.rematchRemoved, Seq.rematchRemoved]
        exact Simulates.raise _ }
  | fuel + 1 =>
    have ih := mirrors fuel
    { tokenize := ih.tokenize_succ
      tokenEntries := fun hc => ih.tokenEntries_succ hc
      matchGrammar := ih.matchGrammar_succ
      matchPatterns := fun hc hg hes hstart hpos hbefore hp =>
        ih.matchPatterns_succ hc hg hes hstart hpos hbefore hp
      matchNodes := fun hc hg he hpat hpos hbefore hp =>
        ih.matchNodes_succ hc hg he hpat hpos hbefore hp
      rematchRemoved := fun hc hq hgreedy hpos hbefore hp =>
        ih.rematchRemoved_succ hc hq hgreedy hpos hbefore hp }

/-- So does the list for a language. -/
theorem tokenizeLanguage_mirrors (fuel : Nat) (text language : Bytes) :
    Mirrors search tree (Holds h) ((tokenizeLanguage search tree fuel text language).run h)
      (Seq.tokenizeLanguage search tree fuel text language) := by
  unfold tokenizeLanguage Seq.tokenizeLanguage
  cases tree.findIndex language with
  | some grammar =>
    simp only [StateT.run_bind]
    refine Simulates.bind (orRaise_mirrors _ _) fun a b _ hab => ?_
    obtain ⟨rfl, -⟩ := hab
    exact (mirrors fuel).tokenize
  | none =>
    obtain ⟨h₁, hrun₁, hr₁, hm₁⟩ := Rep.new_run h text
    rw [hrun₁]
    exact Simulates.pure ⟨_, hr₁, rfl, hm₁⟩

end TSubSpec.Prisma
