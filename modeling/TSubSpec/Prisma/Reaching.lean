import TSubSpec.Prisma.Literal
import TSubSpec.Prisma.Points

/-!
# `TSubSpec.Prisma.Reaching`: every point of a run is sound

A `Point` is `Sound` when its list is placed in the heap, cut where the code is: behind `startNode`
at a call, in front of `currentNode` at a loop head. Then the position the code counts is the offset
of the cut. `Comes.sound` shows every point a run comes to to be sound, by induction along
`Point.Next`.

`quoteRun` is a run that comes to a greedy match over several nodes, and to its rematch.
-/

set_option autoImplicit false

namespace TSubSpec.Prisma

open TSubSpec.Lib
open TSubSpec.Lib.Traced
open Prog

/-- The cell as a node that is labelled with its address. -/
def Cell.node (c : Cell) : Node := ⟨some c.ptr, c.tok⟩

/-- The labelled nodes of a run of cells. -/
def nodesOf (cs : List Cell) : List Node := cs.map Cell.node

/-- A cell and the node it stands for have one token. -/
@[simp] theorem Cell.tok_node (c : Cell) : c.node.tok = c.tok := rfl

/-- The nodes of the cells, the first of them in front. -/
@[simp] theorem nodesOf_cons (c : Cell) (cs : List Cell) :
    nodesOf (c :: cs) = c.node :: nodesOf cs :=
  rfl

/-- The nodes of two stretches of cells. -/
@[simp] theorem nodesOf_append (xs ys : List Cell) :
    nodesOf (xs ++ ys) = nodesOf xs ++ nodesOf ys :=
  List.map_append

/-- Cells show their own nodes. -/
theorem shows_nodesOf (cs : List Cell) : Shows cs (nodesOf cs) := by
  refine List.forall₂_map_right_iff.mpr (List.forall₂_same.mpr fun c _ => ⟨rfl, fun l hl => ?_⟩)
  exact (Option.some.inj hl).symm

/-- The nodes of cells have the tokens of the cells. -/
theorem map_tok_nodesOf (cs : List Cell) : (nodesOf cs).map (·.tok) = cs.map (·.tok) := by
  rw [nodesOf, List.map_map]
  rfl

variable {search : RegexSearch} {tree : LanguageTree} {h : Heap} {list : TokenList} {text : Bytes}
  {grammar : Nat} {frames : List Frame} {ps qs : List Cell} {xs ns : List Node}

/-- Cells that show nodes are as wide as these. -/
theorem Shows.width_eq {cs : List Cell} (hs : Shows cs ns) : width (nodesOf cs) = width ns :=
  width_congr (by rw [map_tok_nodesOf, hs.map_tok])

/-- The nodes can be labelled with the addresses of their cells. -/
theorem Placed.labelled (hp : Placed search tree h list text grammar frames ps qs xs ns) :
    Placed search tree h list text grammar frames ps qs (nodesOf ps) (nodesOf qs) :=
  { hp with
    shows_front := shows_nodesOf ps
    shows_back := shows_nodesOf qs
    reached := by
      have htoks : (nodesOf ps ++ nodesOf qs).map (·.tok) = (xs ++ ns).map (·.tok) := by
        rw [List.map_append, List.map_append, map_tok_nodesOf, map_tok_nodesOf,
          hp.shows_front.map_tok, hp.shows_back.map_tok]
      rw [htoks]
      exact hp.reached }

section

variable (search : RegexSearch) (tree : LanguageTree)

/-- The list is placed, cut behind `startNode`, and the text in front of the cut ends at
`startPos`. -/
def CallAt (c : Call) (list : TokenList) (h : Heap) (ps qs : List Cell) : Prop :=
  c.startNode = Rep.front list ps ∧ c.startPos = width (nodesOf ps) ∧
    Placed search tree h list c.text c.grammar c.outside ps qs (nodesOf ps) (nodesOf qs)

/-- The list is placed, cut in front of `currentNode`, and the text in front of the cut ends at
`pos`. -/
def LoopAt (c : Call) (ptr : TokenListPtr) (pos : Nat) (list : TokenList) (h : Heap)
    (ps qs : List Cell) : Prop :=
  ptr = Rep.back list qs ∧ pos = width (nodesOf ps) ∧
    Placed search tree h list c.text c.grammar c.outside ps qs (nodesOf ps) (nodesOf qs)

/-- The turn is one of the grammar, and has the pattern `p`. -/
def TurnOf (c : Call) (e : Entry) (p : Pattern) : Prop :=
  ∃ g, tree.resolveGrammar c.grammar = some g ∧ e ∈ g.entries ∧
    tree.resolvePattern e.pattern = some p

/-- The list is where the code takes it to be: it represents cells, and the pointers and positions
of the point are those of one of its cuts. -/
def Point.Sound : Point → Prop
  | .call c list _ h => ∃ ps qs, CallAt search tree c list h ps qs
  | .patterns c es list _ h =>
    (∃ g, tree.resolveGrammar c.grammar = some g ∧ ∀ e ∈ es, e ∈ g.entries) ∧
      ∃ ps qs, CallAt search tree c list h ps qs
  | .nodes c e p ptr pos list _ h =>
    TurnOf tree c e p ∧ ∃ ps qs, LoopAt search tree c ptr pos list h ps qs

end

namespace Point

variable {c : Call} {list' : TokenList} {r : Option RematchOptions} {h' : Heap}

/-- The call on sequences with the same arguments. -/
def seqCall (c : Call) (ps : List Cell) : Seq.Call := ⟨c.text, c.grammar, ps.length, c.startPos⟩

/-- A call on the heap and the one on nodes have the same text and grammar. -/
theorem sameCall (c : Call) (ps : List Cell) : SameCall c (seqCall c ps) := ⟨rfl, rfl, rfl⟩

/-- The first call, on the list of a single `Text`. -/
theorem sound_tokenize {g : Nat} {value : Bytes}
    (hnew : (TokenList.new value).Gives h list h') :
    (tokenize value g list h').Sound search tree := by
  obtain ⟨list₁, h₁, cs, hrun, -, hp⟩ := Placed.new search tree h value g
  rw [Prog.Gives, hrun] at hnew
  cases hnew
  exact ⟨[], cs, rfl, rfl, hp.labelled⟩

/-- The node behind `startNode` is the first of the call. -/
theorem start_next {e : Entry} {p : Pattern} {n : TokenListNode}
    (hp : Placed search tree h list c.text c.grammar c.outside ps qs xs ns)
    (hstart : c.startNode = Rep.front list ps) (ht : Tries tree c e r h p n) :
    n.next = Rep.back list qs := by
  obtain ⟨m, hm, hnext⟩ := hp.rep.node_front
  have hcell := ht.start
  rw [hstart, hm] at hcell
  cases hcell
  exact hnext

/-- The loop starts behind `startNode`. -/
theorem sound_start {e : Entry} {es : List Entry} {p : Pattern} {n : TokenListNode}
    (hs : (patterns c (e :: es) list r h).Sound search tree) (ht : Tries tree c e r h p n) :
    (nodes c e p n.next c.startPos list r h).Sound search tree := by
  obtain ⟨⟨g, hg, hes⟩, ps, qs, hstart, hpos, hp⟩ := hs
  have hnext := start_next hp hstart ht
  exact ⟨⟨g, hg, hes e List.mem_cons_self, ht.resolved⟩, ps, qs, hnext, hpos, hp⟩

/-- After a loop over the nodes the next pattern follows. -/
theorem sound_finish {e : Entry} {es : List Entry} {p : Pattern} {n : TokenListNode} {flow : Flow}
    {r' : Option RematchOptions} {fuel : Nat}
    (hs : (patterns c (e :: es) list r h).Sound search tree) (ht : Tries tree c e r h p n)
    (ended : (matchNodes search tree fuel c e p n.next c.startPos list r).Gives h
      (flow, list', r') h') : (patterns c es list' r' h').Sound search tree := by
  obtain ⟨⟨g, hg, hes⟩, ps, qs, hstart, hpos, hp⟩ := hs
  rw [start_next hp hstart ht] at ended
  have he := hes e List.mem_cons_self
  obtain ⟨⟨flow', ns', r''⟩, hb, hflow, hr, qs', hl⟩ :=
    ((mirrors fuel).matchNodes (sameCall c ps) hg he ht.resolved hpos rfl hp).ok ended
  have hout := (Seq.sound fuel).matchNodes (nodesOf ps) (c := seqCall c ps) hg he ht.resolved hpos
    hp.width_eq hb
  have hp' := hp.landed hl hout
  refine ⟨⟨g, hg, fun e he => hes e (List.mem_cons_of_mem _ he)⟩, ps, qs', ?_, hpos, hp'.labelled⟩
  rw [hstart, Rep.front, Rep.front, hl.head_eq]

/-- The search at a loop head is the search on sequences. -/
theorem inspect_at {ptr : TokenListPtr} {pos fuel : Nat} {p : Pattern} {l : Located}
    (hl : LoopAt search tree c ptr pos list h ps qs) (hin : ptr ≠ list.head)
    (found : (inspect search fuel c.text list p ptr pos).Gives h l h') :
    h' = h ∧ ∃ q qs' b, qs = q :: qs' ∧ SameFind list qs l b ∧
      (Seq.inspect search fuel c.text p q.node (nodesOf qs') (width (nodesOf ps))).result =
        .ok b := by
  obtain ⟨rfl, rfl, hp⟩ := hl
  cases qs with
  | nil => exact (hin rfl).elim
  | cons q qs =>
    rw [Rep.back_cons] at found
    obtain ⟨b, hb, hh, hsame⟩ := (inspect_mirrors hp).ok found
    exact ⟨hh, q, qs, b, rfl, hsame, hb⟩

/-- The loop passes over nodes. -/
theorem sound_skip {e : Entry} {p : Pattern} {ptr ptr' : TokenListPtr} {pos pos' fuel : Nat}
    {n : TokenListNode} (hs : (nodes c e p ptr pos list r h).Sound search tree)
    (henters : Enters c ptr pos list r)
    (found : (inspect search fuel c.text list p ptr pos).Gives h (.skip ptr' pos') h')
    (current : h'.cell ptr' = some n) :
    (nodes c e p n.next (pos' + n.payload.length) list r h').Sound search tree := by
  obtain ⟨hturn, ps, qs, hl⟩ := hs
  obtain ⟨rfl, q, qs, b, rfl, hsame, hb⟩ := inspect_at hl henters.inList found
  obtain ⟨rfl, rfl, hp⟩ := hl
  cases hsame with
  | @skip qk qr qc kept rest cur _ hcells hcut =>
    obtain ⟨⟨m, hm, hnext, hlength⟩, hpos, hqk, hp'⟩ := hp.skipped hb hcells hcut
    rw [hm] at current
    cases current
    refine ⟨hturn, ps ++ (qk ++ [qc]), qr, hnext, ?_, hp'.labelled⟩
    rw [hp'.shows_front.width_eq, hlength, hpos]

/-- The list after the loop has written a match, cut in front of its `Syntax`. -/
theorem write_at {e : Entry} {p : Pattern} {ptr ptr' written : TokenListPtr}
    {pos pos' i removeCount fuel : Nat} {str view before : Bytes} {entries : TokenList} {h₁ : Heap}
    (hturn : TurnOf tree c e p) (hl : LoopAt search tree c ptr pos list h ps qs)
    (hin : ptr ≠ list.head)
    (found : (inspect search fuel c.text list p ptr pos).Gives h
      (.found ptr' pos' str i view removeCount) h₁)
    (write : (writeMatch search tree fuel c e p list ptr' str i view removeCount).Gives h₁
      (written, before, list', entries) h') :
    ∃ ps' q qs' xs n ns, written = q.ptr ∧ q.tok.isSyntax = true ∧
      pos' + before.length = width xs ∧ pos' + str.length ≤ c.text.length ∧
      (1 < removeCount → tree.HasGreedy c.grammar) ∧ Rep h' entries [] ∧
      entries.head ∉ list'.head :: area (ps' ++ q :: qs') ∧
      Placed search tree h' list' c.text c.grammar c.outside ps' (q :: qs') xs (n :: ns) := by
  obtain ⟨rfl, q, qs, b, rfl, hsame, hb⟩ := inspect_at hl hin found
  obtain ⟨rfl, rfl, hp⟩ := hl
  obtain ⟨g, hg, he, hpat⟩ := hturn
  cases hsame with
  | @found qk qr kept rest _ _ _ _ _ hcells hcut =>
    obtain ⟨seg, qseg, qrest, hns, hpos, hfound, rfl, hqk, hqseg, hqrest, hseg, rfl, hr, hgreedy⟩ :=
      Lockstep.run_cells hg he hpat hp hb hcells hcut
    -- The code writes what the sequence writes, and the list is placed again.
    obtain ⟨w, hw, qb, qc, qa, hwr⟩ :=
      ((mirrors fuel).writeMatch_mirrors (sameCall c ps) e p hr hseg).ok write
    obtain ⟨hp', hbpos, hreach, -⟩ :=
      Lockstep.placed_written (sameCall c ps) hg he hpat hp hb hqk hqrest hw hwr
    have hbefore : before = w.1 := hwr.before_eq
    have hhead : list'.head = list.head := hwr.head_eq
    refine ⟨_, qc, _, _, _, _, hwr.ptr_eq, by rw [hwr.sees.tok]; rfl, hbefore ▸ hbpos, hreach,
      hgreedy, hwr.rep_from, ?_, hp'⟩
    rw [hhead]
    exact hwr.from_new

/-- The call of the rematch starts behind the node in front of the `Syntax`. -/
theorem sound_rematch {e : Entry} {p : Pattern} {ptr ptr' written : TokenListPtr}
    {pos pos' i removeCount fuel : Nat} {str view before : Bytes} {entries : TokenList}
    {h₁ : Heap} {n : TokenListNode} {r' : Option RematchOptions}
    (hs : (nodes c e p ptr pos list r h).Sound search tree) (henters : Enters c ptr pos list r)
    (found : (inspect search fuel c.text list p ptr pos).Gives h
      (.found ptr' pos' str i view removeCount) h₁)
    (write : (writeMatch search tree fuel c e p list ptr' str i view removeCount).Gives h₁
      (written, before, list', entries) h')
    (removed : 1 < removeCount) (current : h'.cell written = some n) :
    (call ⟨c.text, c.grammar, n.prev, pos' + before.length, c.at written⟩ list' r' h').Sound
      search tree := by
  obtain ⟨hturn, ps, qs, hl⟩ := hs
  obtain ⟨ps', q, qs', xs, m, ns, rfl, hq, hpos, -, hgreedy, -, -, hp⟩ :=
    write_at hturn hl henters.inList found write
  obtain ⟨k, hk, hprev, -, -⟩ := hp.rep.node_at
  rw [hk] at current
  cases current
  refine ⟨ps', q :: qs', hprev, ?_, ?_⟩
  · rw [hp.shows_front.width_eq]
    exact hpos
  · rw [hprev]
    exact (hp.nested hq (hgreedy removed)).labelled

/-- The loop goes on behind the `Syntax`. -/
theorem sound_goOn {e : Entry} {p : Pattern} {ptr ptr' written : TokenListPtr}
    {pos pos' i removeCount fuel : Nat} {str view before : Bytes}
    {list'' entries : TokenList} {h₁ h₂ h₃ : Heap} {n : TokenListNode}
    {r₁ r' : Option RematchOptions}
    (hs : (nodes c e p ptr pos list r h).Sound search tree) (henters : Enters c ptr pos list r)
    (found : (inspect search fuel c.text list p ptr pos).Gives h
      (.found ptr' pos' str i view removeCount) h₁)
    (write : (writeMatch search tree fuel c e p list ptr' str i view removeCount).Gives h₁
      (written, before, list', entries) h₂)
    (rematched : (rematchRemoved search tree fuel c e written (pos' + before.length)
      (pos' + str.length) list' r₁ removeCount).Gives h₂ (list'', r') h₃)
    (destroyed : entries.destroy.Gives h₃ () h') (current : h'.cell written = some n) :
    (nodes c e p n.next (pos' + before.length + n.payload.length) list'' r' h').Sound
      search tree := by
  obtain ⟨hturn, ps, qs, hl⟩ := hs
  obtain ⟨ps', q, qs', xs, m, ns, rfl, hq, hpos, hreach, hgreedy, hfrom, hnew, hp⟩ :=
    write_at hturn hl henters.inList found write
  obtain ⟨⟨ns', r''⟩, hb, -, qs'', hland⟩ :=
    ((mirrors fuel).rematchRemoved (sameCall c ps') hq hgreedy hpos rfl hp).ok rematched
  have hm : m.tok.isSyntax = true := by
    rw [← (List.forall₂_cons.mp hp.shows_back).1.tok]
    exact hq
  -- The rematch leaves the `Syntax` behind the cut, and the destructor leaves the list.
  have hout := (Seq.sound fuel).rematchRemoved xs hm hpos hreach hp.width_eq hb
  have hp₁ := hp.landed hland hout
  obtain ⟨hfrom₁, hnew₁⟩ := hland.carries hfrom hnew
  obtain ⟨h₄, k, hrun, -, hk, hnext, hlength, hp₂⟩ := hp₁.past hfrom₁ hnew₁
  rw [Prog.Gives, hrun] at destroyed
  cases destroyed
  rw [hk] at current
  cases current
  refine ⟨hturn, ps' ++ [q], qs'', hnext, ?_, hp₂.labelled⟩
  rw [hp₂.shows_front.width_eq, hlength, hpos]
  simp

/-- Every step of the code keeps the point sound. -/
theorem Next.sound {p q : Point} (hnext : Next search tree p q) (hs : p.Sound search tree) :
    q.Sound search tree := by
  cases hnext with
  | enter resolved =>
    obtain ⟨ps, qs, hcall⟩ := hs
    exact ⟨⟨_, resolved, fun _ he => he⟩, ps, qs, hcall⟩
  | start tries => exact sound_start hs tries
  | finish tries ended => exact sound_finish hs tries ended
  | skip enters found current => exact sound_skip hs enters found current
  | inside enters found cut inside new => exact sound_tokenize new
  | rematch enters found write removed current =>
    exact sound_rematch hs enters found write removed current
  | goOn enters found write rematched destroyed current =>
    exact sound_goOn hs enters found write rematched destroyed current

end Point

/-- Every point a run comes to is sound. -/
theorem Comes.sound {p : Point} (hp : Comes search tree text grammar h p) :
    p.Sound search tree := by
  obtain ⟨list, h', hnew, hpath⟩ := hp
  induction hpath with
  | refl => exact Point.sound_tokenize hnew
  | tail _ hnext ih => exact hnext.sound ih

/-! ### A run that rematches -/

/-- The program goes on only when the condition holds. -/
def Prog.require (P : Prop) [Decidable P] : Prog Unit :=
  if P then pure () else raise .badPointer

/-- A program that requires a condition gives something only where the condition holds. -/
theorem require_bind_gives {α : Type} {P : Prop} [Decidable P] {f : Unit → Prog α} {h h' : Heap}
    {a : α} (hg : (require P >>= f).Gives h a h') : P ∧ (f ()).Gives h a h' := by
  unfold require at hg
  split at hg
  · exact ⟨‹_›, hg⟩
  · cases hg

/-- A word, and the same word in quotes. -/
def quoteText : Bytes := ascii "if 'if'"

/-- The turns of `quoteTree`. -/
def quoteKeyword : Entry := ⟨ascii "keyword", 0, 0⟩

/-- The entry of the strings in quotes. -/
def quoteString : Entry := ⟨ascii "string", 0, 1⟩

/-- The pattern of the strings in quotes: it is greedy, and its inside has a grammar of its own. -/
def quoted : Pattern := { literal "'if'" with greedy := true, inside := some 1 }

/-- The run over `if 'if'` up to its rematch. The keyword has marked the `if` inside the string
before the turn of the string comes. -/
def quoteRun : Prog Unit := do
  let list ← TokenList.new quoteText
  let c : Call := ⟨quoteText, 0, list.head, 0, []⟩
  let start ← node list.head
  match ← matchNodes literalSearch quoteTree 30 c quoteKeyword (literal "if") start.next 0 list
    none with
  | (.finished, list, none) => do
    let start ← node c.startNode
    require (start.next ≠ list.head ∧ list.length ≤ quoteText.length)
    match ← inspect literalSearch 30 quoteText list quoted start.next 0 with
    | .skip ptr pos => do
      let n ← node ptr
      require (n.next ≠ list.head ∧ pos + n.payload.length = 2)
      match (← node n.next).payload with
      | .text value => do
        require (value.length = 2)
        match ← inspect literalSearch 30 quoteText list quoted n.next 2 with
        | .found ptr pos str i view removeCount => do
          require (1 < removeCount)
          let (written, before, list, _) ←
            writeMatch literalSearch quoteTree 30 c quoteString quoted list ptr str i view
              removeCount
          let n ← node written
          let _ ← matchGrammar literalSearch quoteTree 30
            ⟨quoteText, 0, n.prev, pos + before.length, c.at written⟩ list
            (some ⟨quoteString.token, pos + str.length, quoteString.x⟩)
        | _ => raise .badPointer
      | _ => raise .badPointer
    | _ => raise .badPointer
  | _ => raise .badPointer

/-- The loop head `quoteRun` comes to, at the `Text` in front of the `if` in the string. -/
structure QuotePoint (c : Call) (ptr : TokenListPtr) (list : TokenList) (h : Heap)
    (value : Bytes) : Prop where
  text : c.text = quoteText
  comes : Comes literalSearch quoteTree quoteText 0 Heap.empty
    (.nodes c quoteString quoted ptr 2 list none h)
  enters : Point.Enters c ptr 2 list none
  payload : h.payload ptr = some (.text value)
  length_eq : value.length = 2

/-- `quoteRun` searches there, writes the match and rematches. -/
theorem quote_comes : ∃ c ptr list h₁ value, QuotePoint c ptr list h₁ value ∧
    ∃ ptr' pos' str i view removeCount h₂,
      (inspect literalSearch 30 c.text list quoted ptr 2).Gives h₁
        (.found ptr' pos' str i view removeCount) h₂ ∧ 1 < removeCount ∧
      ∃ a h₃ n, (writeMatch literalSearch quoteTree 30 c quoteString quoted list ptr' str i view
          removeCount).Gives h₂ a h₃ ∧ h₃.cell a.1 = some n ∧
        ∃ b h₄, (matchGrammar literalSearch quoteTree 30
          ⟨c.text, c.grammar, n.prev, pos' + a.2.1.length, c.at a.1⟩ a.2.2.1
          (some ⟨quoteString.token, pos' + str.length, quoteString.x⟩)).Gives h₃ b h₄ := by
  -- The run is evaluated once, and then taken apart step by step.
  obtain ⟨⟨_, h₉⟩, hrun⟩ := exists_ok (r := (quoteRun.run Heap.empty).result) (by decide +kernel)
  obtain ⟨list₀, h₀, hnew, hrun⟩ := gives_bind.mp hrun
  obtain ⟨start₀, hstart₀, hrun⟩ := node_bind_gives hrun
  obtain ⟨⟨flow, list, r⟩, h₁, hkeyword, hrun⟩ := gives_bind.mp hrun
  cases flow with
  | returned => cases hrun
  | finished =>
  cases r with
  | some r => cases hrun
  | none =>
  obtain ⟨start, hstart, hrun⟩ := node_bind_gives hrun
  obtain ⟨⟨hin, hfits⟩, hrun⟩ := require_bind_gives hrun
  obtain ⟨l, h₂, hskip, hrun⟩ := gives_bind.mp hrun
  cases l with
  | stop => cases hrun
  | found => cases hrun
  | skip ptr pos =>
  obtain ⟨n, hn, hrun⟩ := node_bind_gives hrun
  obtain ⟨⟨hin', hpos⟩, hrun⟩ := require_bind_gives hrun
  obtain ⟨m, hm, hrun⟩ := node_bind_gives hrun
  cases hpl : m.payload with
  | sentinel =>
    rw [hpl] at hrun
    cases hrun
  | syn =>
    rw [hpl] at hrun
    cases hrun
  | text value =>
  rw [hpl] at hrun
  obtain ⟨hlength, hrun⟩ := require_bind_gives hrun
  obtain ⟨l, h₃, hfound, hrun⟩ := gives_bind.mp hrun
  cases l with
  | stop => cases hrun
  | skip => cases hrun
  | found ptr' pos' str i view removeCount =>
  obtain ⟨hcount, hrun⟩ := require_bind_gives hrun
  obtain ⟨⟨written, before, list', entries⟩, h₄, hwrite, hrun⟩ := gives_bind.mp hrun
  obtain ⟨k, hk, hrun⟩ := node_bind_gives hrun
  obtain ⟨b, h₅, hcall, hrun⟩ := gives_bind.mp hrun
  have henters : Point.Enters ⟨quoteText, 0, list₀.head, 0, []⟩ start.next 0 list none :=
    ⟨hin, rfl, hfits⟩
  have hcomes := (Relation.ReflTransGen.refl (r := Point.Next literalSearch quoteTree))
    |>.tail (Point.Next.enter (c := ⟨quoteText, 0, list₀.head, 0, []⟩) (h := h₀) rfl)
    |>.tail (.finish ⟨rfl, rfl, ⟨_, rfl⟩, hstart₀⟩ hkeyword)
    |>.tail (.start ⟨rfl, rfl, ⟨_, rfl⟩, hstart⟩)
    |>.tail (.skip henters hskip hn)
  rw [hpos] at hcomes
  refine ⟨⟨quoteText, 0, list₀.head, 0, []⟩, n.next, list, h₂, value, ?_,
    ptr', pos', str, i, view, removeCount, h₃, hfound, hcount,
    (written, before, list', entries), h₄, k, hwrite, hk, b, h₅, hcall⟩
  exact
    { text := rfl
      comes := ⟨list₀, h₀, hnew, hcomes⟩
      enters := ⟨hin', rfl, hfits⟩
      payload := by
        rw [Heap.payload, hm, ← hpl]
        rfl
      length_eq := hlength }

end TSubSpec.Prisma
