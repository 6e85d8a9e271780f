import TSubSpec.Prisma.Filled
import TSubSpec.Prisma.Reaching

/-!
# `TSubSpec.Prisma.Guard`: the guard on the list length stays silent

`matchGrammar` gives up when its list has more nodes than the text has characters, and drops the
rest of the highlighting. `guard_silent` proves that it never does on a text that is not empty, when
no pattern of the grammar and of the grammars nested in it matches the empty string.

Two facts carry the proof. The nodes are `Filled`, so there are at most as many of them as
characters, and the list counts its nodes right (`Rep.length_eq`). `Point.Sane` takes what they need
to every point the run comes to, into the grammars nested in the first one as well.

Without the guard nothing cuts a turn short. `Seq.Swept` says how the loop over the nodes covers
its range, from node to node without a gap, and `Seq.Tried` that every turn of the call does.
-/

set_option autoImplicit false

namespace TSubSpec.Prisma

open TSubSpec.Lib
open TSubSpec.Lib.Traced
open Prog

/-! ### Every turn covers its range -/

namespace Seq

section

variable (search : RegexSearch) (tree : LanguageTree)

/-- The loop for the pattern `p` covers the nodes at `pos`, up to the end of its range: at each of
them it finds no match, or puts in what it found and goes on behind it. -/
inductive Swept (c : Call) (e : Entry) (p : Pattern) :
    Nat → List Node → Option RematchOptions → Prop
  /-- No node is left. -/
  | done {pos : Nat} {r : Option RematchOptions} : Swept c e p pos [] r
  /-- The range of a rematch ends here. -/
  | reached {pos : Nat} {ns : List Node} {r : Option RematchOptions}
      (h : RematchOptions.isReached r pos = true) : Swept c e p pos ns r
  /-- A greedy search finds nothing in all the text behind. -/
  | exhausted {pos : Nat} {ns : List Node} {r : Option RematchOptions}
      (inspected : Inspected search p c.text pos ns .stop) : Swept c e p pos ns r
  /-- The search finds nothing to write in `kept` and `current`, and goes on behind them. -/
  | skip {pos pos' : Nat} {ns kept rest : List Node} {current : Node} {r : Option RematchOptions}
      (inspected : Inspected search p c.text pos ns (.skip kept current rest pos'))
      (next : Swept c e p (pos' + current.tok.length) rest r) : Swept c e p pos ns r
  /-- A match is written, and the loop goes on behind it, at the text after the match. -/
  | found {pos pos' i removeCount fuel before : Nat} {ns kept rest rest' : List Node}
      {str view : Bytes} {children : List Tok} {r r' : Option RematchOptions}
      (inspected : Inspected search p c.text pos ns (.found kept pos' str i view removeCount rest))
      (rematched : (rematchRemoved search tree fuel c e before
        ⟨none, .syn e.token children p.aliasName view.length⟩
        (textNode (str.drop (i + view.length)) ++ rest) (pos' + (str.take i).length)
        (pos' + str.length) (RematchOptions.extend r (pos' + str.length)) removeCount).result
          = .ok (rest', r'))
      (next : Swept c e p (pos' + (str.take i).length + view.length) rest' r') :
      Swept c e p pos ns r

/-- Every turn of `es` covers its range, up to the turn that caused the rematch, which is where a
rematch stops. -/
inductive Tried (c : Call) : List Entry → List Node → Option RematchOptions → Prop
  | done {ns : List Node} {r : Option RematchOptions} : Tried c [] ns r
  | cause {e : Entry} {es : List Entry} {ns : List Node} {r : Option RematchOptions}
      (h : RematchOptions.isCause r e = true) : Tried c (e :: es) ns r
  | turn {e : Entry} {es : List Entry} {p : Pattern} {ns ns' : List Node} {fuel : Nat}
      {r r' : Option RematchOptions} (not_cause : RematchOptions.isCause r e = false)
      (resolved : tree.resolvePattern e.pattern = some p)
      (swept : Swept search tree c e p c.startPos ns r)
      (ended : (matchNodes search tree fuel c e p c.before ns c.startPos r).result
        = .ok (.finished, ns', r'))
      (rest : Tried c es ns' r') : Tried c (e :: es) ns r

end

variable {search : RegexSearch} {tree : LanguageTree} {c : Call} {g : Grammar} {e : Entry}
  {p : Pattern}

/-- The loop over filled nodes covers its range, when no match of the grammar is empty. The
induction is on the fuel, and the nodes stay filled along it. -/
theorem matchNodes_swept (hg : tree.resolveGrammar c.grammar = some g) (he : e ∈ g.entries)
    (hp : tree.resolvePattern e.pattern = some p)
    (hfills : ∀ e ∈ g.entries, ∀ p, tree.resolvePattern e.pattern = some p → p.Fills search) :
    ∀ {fuel pos before : Nat} (xs : List Node) {ns ns' : List Node}
      {r r' : Option RematchOptions} {flow : Flow},
      before = xs.length → pos = width xs → width (xs ++ ns) = c.text.length → Filled (xs ++ ns) →
      (matchNodes search tree fuel c e p before ns pos r).result = .ok (flow, ns', r') →
      flow = .finished ∧ Swept search tree c e p pos ns r
  | 0, _, _, _, _, _, _, _, _, _, _, _, _, h => by simp [matchNodes] at h
  | fuel + 1, pos, before, xs, ns, ns', r, r', flow, hbefore, hpos, hw, hfill, h => by
    subst hpos
    cases matchNodes_ok_iff.mp h with
    | done => exact ⟨rfl, .done⟩
    | reached hr => exact ⟨rfl, .reached hr⟩
    | aborted hr hguard =>
      have hle := hfill.length_le
      rw [hw, List.length_append] at hle
      omega
    | stop hr hguard found =>
      exact ⟨rfl, .exhausted (inspect_inspected (by simpa using hw) found)⟩
    | @skip n ns pos r kept rest nodes current pos' flow r' hr hguard found next =>
      obtain ⟨hpos', hw'⟩ := skip_placed hw found
      have hns := (inspect_ok (by simpa using hw) found).skip_eq.1
      rw [hns] at hfill
      obtain ⟨hflow, hswept⟩ := matchNodes_swept hg he hp hfills (xs ++ (kept ++ [current]))
        (by rw [hbefore]; simp [Nat.add_assoc]) hpos' hw'
        (by simpa only [List.append_assoc, List.cons_append, List.nil_append] using hfill) next
      exact ⟨hflow, .skip (inspect_inspected (by simpa using hw) found) hswept⟩
    | @found n ns pos r kept rest rest' nodes pos' i removeCount str view b a children r₁ r' flow
        hr hguard found cut entries rematched next =>
      obtain ⟨hb, hreach, hw'⟩ := found_placed
        ⟨none, .syn e.token children p.aliasName view.length⟩ hw found cut rfl
      have h₁ := (sound fuel).written (r := r) hg he hp hw found cut entries
      have h₂ := (sound fuel).rematchRemoved _ (c := c) rfl hb hreach hw' rematched
      obtain ⟨-, rfl, rfl⟩ := cutOut_ok cut
      -- The match and its rematch leave the nodes filled.
      have hfill₁ := h₁.rewrites.filled hg hfills hfill
      rw [← List.append_assoc] at hfill₁
      have hfill₂ := h₂.rewrites.filled hg hfills hfill₁
      obtain ⟨hflow, hswept⟩ := matchNodes_swept hg he hp hfills
        (xs ++ (kept ++ textNode (str.take i)) ++
          [⟨none, .syn e.token children p.aliasName view.length⟩])
        (by rw [hbefore]; simp [Nat.add_assoc]) (by rw [hb, width_append _ [_]]; rfl)
        (by rw [← hw', ← h₂.width_eq, List.append_assoc _ [_]]; rfl)
        (by simpa only [List.append_assoc, List.cons_append, List.nil_append] using hfill₂) next
      exact ⟨hflow, .found (inspect_inspected (by simpa using hw) found) rematched hswept⟩

/-- Every turn of a call that returns covers its range. -/
theorem matchPatterns_tried (hg : tree.resolveGrammar c.grammar = some g)
    (hfills : ∀ e ∈ g.entries, ∀ p, tree.resolvePattern e.pattern = some p → p.Fills search)
    (xs : List Node) (hbefore : c.before = xs.length) (hpos : c.startPos = width xs) :
    ∀ {fuel : Nat} {es : List Entry} {ns ns' : List Node} {r r' : Option RematchOptions},
      (∀ e ∈ es, e ∈ g.entries) → width (xs ++ ns) = c.text.length → Filled (xs ++ ns) →
      (matchPatterns search tree fuel c es ns r).result = .ok (ns', r') →
      Tried search tree c es ns r
  | 0, _, _, _, _, _, _, _, _, h => by simp [matchPatterns] at h
  | fuel + 1, es, ns, ns', r, r', hes, hw, hfill, h => by
    cases matchPatterns_ok h with
    | done => exact .done
    | cause hcause => exact .cause hcause
    | returned hcause hresolved hnodes =>
      have he := hes _ List.mem_cons_self
      -- The guard does not fire, so no turn aborts the call.
      cases (matchNodes_swept hg he hresolved hfills xs hbefore hpos hw hfill hnodes).1
    | finished hcause hresolved hnodes next =>
      have he := hes _ List.mem_cons_self
      obtain ⟨-, hswept⟩ :=
        matchNodes_swept hg he hresolved hfills xs hbefore hpos hw hfill hnodes
      have hout := (sound fuel).matchNodes xs hg he hresolved hpos hw hnodes
      have hrest := matchPatterns_tried hg hfills xs hbefore hpos
        (fun e he => hes e (List.mem_cons_of_mem _ he)) (hout.width_eq.trans hw)
        (hout.rewrites.filled hg hfills hfill) next
      exact .turn hcause hresolved hswept hnodes hrest

end Seq

/-! ### Grammars that match no empty range -/

section

variable (search : RegexSearch) (tree : LanguageTree)

/-- The grammar `inside` is the inside grammar of a pattern of `grammar`. -/
def LanguageTree.Inside (grammar inside : Nat) : Prop :=
  ∃ g e p, tree.resolveGrammar grammar = some g ∧ e ∈ g.entries ∧
    tree.resolvePattern e.pattern = some p ∧ p.inside = some inside

/-- No search of the pattern returns an empty range. -/
def Pattern.NonEmpty (p : Pattern) : Prop :=
  ∀ pos s i view, p.matchText search pos s = some (i, view) → view ≠ []

/-- No search of a pattern of the grammar, or of a grammar nested in it, returns an empty range. An
empty match would be an empty node, and such nodes could make the list longer than the text. -/
def LanguageTree.Sane (grammar : Nat) : Prop :=
  ∀ nested g, Relation.ReflTransGen tree.Inside grammar nested →
    tree.resolveGrammar nested = some g → ∀ e ∈ g.entries, ∀ p,
      tree.resolvePattern e.pattern = some p → p.NonEmpty search

/-- The call of the point. -/
def Point.caller : Point → Call
  | .call c _ _ _ | .patterns c _ _ _ _ | .nodes c _ _ _ _ _ _ _ => c

/-- The call works on a text that is not empty, with the grammar or one nested in it. -/
structure Point.Sane (grammar : Nat) (p : Point) : Prop where
  text : p.caller.text ≠ []
  nested : Relation.ReflTransGen tree.Inside grammar p.caller.grammar

end

variable {search : RegexSearch} {tree : LanguageTree} {grammar : Nat} {text : Bytes} {h : Heap}

/-- The patterns of a grammar that is nested in a sane one fill. -/
theorem LanguageTree.Sane.fills (hsane : tree.Sane search grammar) {nested : Nat} {g : Grammar}
    (hnested : Relation.ReflTransGen tree.Inside grammar nested)
    (hg : tree.resolveGrammar nested = some g) :
    ∀ e ∈ g.entries, ∀ p, tree.resolvePattern e.pattern = some p → p.Fills search :=
  fun e he p hp => Pattern.fills (hsane nested g hnested hg e he p hp)

/-- A match of a sane grammar is not empty. -/
theorem LanguageTree.Sane.view_ne {c : Call} {e : Entry} {p : Pattern} {ptr ptr' : TokenListPtr}
    {pos pos' i removeCount fuel : Nat} {str view : Bytes} {list : TokenList}
    {r : Option RematchOptions} {h h' : Heap} (hsane : tree.Sane search grammar)
    (hp : (Point.nodes c e p ptr pos list r h).Sane tree grammar)
    (hs : (Point.nodes c e p ptr pos list r h).Sound search tree)
    (henters : Point.Enters c ptr pos list r)
    (found : (inspect search fuel c.text list p ptr pos).Gives h
      (.found ptr' pos' str i view removeCount) h') :
    view ≠ [] ∧ ∀ inside, p.inside = some inside →
      Relation.ReflTransGen tree.Inside grammar inside := by
  obtain ⟨⟨g, hg, he, hpat⟩, ps, qs, hl⟩ := hs
  obtain ⟨-, q, qs, b, rfl, hsame, hb⟩ := Point.inspect_at hl henters.inList found
  refine ⟨?_, fun inside hin => hp.nested.tail ⟨g, e, p, hg, he, hpat, hin⟩⟩
  cases hsame with
  | found hcells hcut =>
    obtain ⟨seg, -, -, -, hfound⟩ :=
      Seq.inspect_ok (by simpa [nodesOf_append] using hl.2.2.width_eq) hb
    exact hsane.fills hp.nested hg e he p hpat hfound

/-- Every point a run on a sane grammar comes to is sane. -/
theorem Comes.sane (hsane : tree.Sane search grammar) (htext : text ≠ []) {p : Point}
    (hp : Comes search tree text grammar h p) : p.Sane tree grammar := by
  obtain ⟨list, h', hnew, hpath⟩ := hp
  induction hpath with
  | refl => exact ⟨htext, .refl⟩
  | @tail q p hpath hnext ih =>
    have hs := (show Comes search tree text grammar h q from ⟨list, h', hnew, hpath⟩).sound
    cases hnext with
    | enter => exact ⟨ih.text, ih.nested⟩
    | start => exact ⟨ih.text, ih.nested⟩
    | finish => exact ⟨ih.text, ih.nested⟩
    | skip => exact ⟨ih.text, ih.nested⟩
    | rematch => exact ⟨ih.text, ih.nested⟩
    | goOn => exact ⟨ih.text, ih.nested⟩
    | inside enters found cut inside new =>
      obtain ⟨hview, hnested⟩ := hsane.view_ne ih hs enters found
      exact ⟨hview, hnested _ inside⟩

/-! ### The guard -/

/-- A list that is placed in a sane call is filled. -/
theorem Placed.filled {list : TokenList} {c : Call} {frames : List Frame} {ps qs : List Cell}
    {xs ns : List Node} {g : Grammar} (hsane : tree.Sane search grammar)
    (htext : c.text ≠ []) (hnested : Relation.ReflTransGen tree.Inside grammar c.grammar)
    (hg : tree.resolveGrammar c.grammar = some g)
    (hp : Placed search tree h list c.text c.grammar frames ps qs xs ns) : Filled (xs ++ ns) :=
  hp.reached.filled hg (hsane.fills hnested hg) htext

/-- The list holds no empty node, counts its nodes right, and has no more nodes than the text has
characters. -/
structure Room (text : Bytes) (list : TokenList) (h : Heap) (cs : List Cell) : Prop where
  rep : Rep h list cs
  filled : Filled (nodesOf cs)
  length_eq : list.length = cs.length
  length_le : list.length ≤ text.length

/-- A loop head has room, and the guard does not fire. The other events say nothing about the
guard. -/
def Event.Guarded : Event → Prop
  | .loopHead s => ∃ cs, Room s.text s.tokenList s.heap cs
  | .aborted _ => False
  | _ => True

/-- Every loop head of a run on a sane grammar has room. -/
theorem Comes.room {c : Call} {e : Entry} {p : Pattern} {ptr : TokenListPtr} {pos : Nat}
    {list : TokenList} {r : Option RematchOptions} {h₁ : Heap} (hsane : tree.Sane search grammar)
    (htext : text ≠ [])
    (hp : Comes search tree text grammar h (.nodes c e p ptr pos list r h₁)) :
    ∃ cs, Room c.text list h₁ cs := by
  obtain ⟨⟨g, hg, -⟩, ps, qs, -, -, hplaced⟩ := hp.sound
  have hcall := hp.sane hsane htext
  have hfilled := hplaced.filled hsane hcall.text hcall.nested hg
  have hle := hfilled.length_le
  rw [hplaced.width_eq, ← nodesOf_append, nodesOf, List.length_map] at hle
  refine ⟨ps ++ qs, hplaced.rep, ?_, hplaced.rep.length_eq, hplaced.rep.length_eq.trans_le hle⟩
  rw [nodesOf_append]
  exact hfilled

/-- The calls on sequences try every pattern. -/
theorem Comes.tried {c : Call} {list list' : TokenList} {r r' : Option RematchOptions}
    {h₁ h₂ : Heap} {fuel : Nat} (hsane : tree.Sane search grammar) (htext : text ≠ [])
    (hp : Comes search tree text grammar h (.call c list r h₁))
    (hret : (matchGrammar search tree fuel c list r).Gives h₁ (list', r') h₂) :
    ∃ g ps qs, tree.resolveGrammar c.grammar = some g ∧ CallAt search tree c list h₁ ps qs ∧
      Seq.Tried search tree (Point.seqCall c ps) g.entries (nodesOf qs) r := by
  obtain ⟨ps, qs, hat⟩ := hp.sound
  obtain ⟨hstart, hpos, hplaced⟩ := hat
  have hcall := hp.sane hsane htext
  obtain ⟨⟨ns', r₁⟩, hb, -⟩ :=
    ((mirrors fuel).matchGrammar (Point.sameCall c ps) hstart hpos rfl hplaced).ok hret
  cases fuel with
  | zero => simp [Seq.matchGrammar] at hb
  | succ fuel =>
    rw [Seq.matchGrammar] at hb
    obtain ⟨g, hg, hb⟩ := Traced.bind_result_ok.mp hb
    have hg := Seq.orRaise_result.mp hg
    refine ⟨g, ps, qs, hg, ⟨hstart, hpos, hplaced⟩, ?_⟩
    exact Seq.matchPatterns_tried (c := Point.seqCall c ps) hg (hsane.fills hcall.nested hg)
      (nodesOf ps) (by simp [Point.seqCall, nodesOf]) hpos (fun _ he => he)
      hplaced.width_eq (hplaced.filled hsane hcall.text hcall.nested hg) hb

/-- On a text that is not empty and a sane grammar the guard never fires, and every call tries every
pattern on all of its range. Each node of a list has an octet of its own, so the list is never
longer than the text. -/
theorem guard_silent (search : RegexSearch) (tree : LanguageTree) (text : Bytes) (grammar : Nat)
    (h : Heap) (htext : text ≠ []) (hsane : tree.Sane search grammar) :
    (∀ fuel, Emits Event.Guarded ((tokenize search tree fuel text grammar).run h)) ∧
      ∀ c list r h₁, Comes search tree text grammar h (.call c list r h₁) →
        ∀ fuel list' r' h₂, (matchGrammar search tree fuel c list r).Gives h₁ (list', r') h₂ →
          ∃ g ps qs, tree.resolveGrammar c.grammar = some g ∧ CallAt search tree c list h₁ ps qs ∧
            Seq.Tried search tree (Point.seqCall c ps) g.entries (nodesOf qs) r := by
  refine ⟨fun fuel => (tokenize_watched fuel text grammar h).mono fun w hw => ?_,
    fun c list r h₁ hp fuel list' r' h₂ hret => hp.tried hsane htext hret⟩
  cases w with
  | loopHead s =>
    obtain ⟨c, e, p, ptr, pos, r, hp, htext', -⟩ := hw
    obtain ⟨cs, hroom⟩ := hp.room hsane htext
    exact ⟨cs, htext' ▸ hroom⟩
  -- An abort says that the list is longer than the text, for which there is never room.
  | aborted s =>
    obtain ⟨c, e, p, ptr, pos, r, hp, htext', -, -, hlt⟩ := hw
    obtain ⟨cs, hroom⟩ := hp.room hsane htext
    have hle := hroom.length_le
    rw [← htext'] at hle
    exact Nat.not_lt_of_le hle hlt
  | entered s => trivial
  | left s => trivial
  | deleted head item => trivial
  | inside hd => trivial

/-- No pattern of `quoteTree` matches the empty string. -/
theorem quoteTree_sane (grammar : Nat) : quoteTree.Sane literalSearch grammar := by
  intro nested g hnested hg e he p hp pos s i view hmatch
  have hsource : ∀ p ∈ quoteTree.patterns, p.source ≠ [] := by decide
  exact p.ne_nil_of_literal (hsource p (List.mem_of_getElem? hp)) hmatch

/-- On a text with a quoted string the guard does not fire. -/
theorem guard_silent_quote :
    (∀ fuel, Emits Event.Guarded
      ((tokenize literalSearch quoteTree fuel quoteText 0).run Heap.empty)) ∧
    ∃ (g : Grammar) (c : Call) (list : TokenList) (r : RematchOptions) (h₁ : Heap)
      (ps qs : List Cell),
      Comes literalSearch quoteTree quoteText 0 Heap.empty (.call c list (some r) h₁) ∧
        CallAt literalSearch quoteTree c list h₁ ps qs ∧
        Seq.Tried literalSearch quoteTree (Point.seqCall c ps) g.entries (nodesOf qs) (some r) := by
  obtain ⟨c, ptr, list, h₁, value, hat, ptr', pos', str, i, view, removeCount, h₂, found, removed,
    a, h₃, n, write, current, ⟨list', r'⟩, h₄, hret⟩ := quote_comes
  have hcall := hat.comes.next (.rematch hat.enters found write removed current)
  obtain ⟨hguard, htried⟩ :=
    guard_silent literalSearch quoteTree quoteText 0 Heap.empty (by decide) (quoteTree_sane 0)
  obtain ⟨g, ps, qs, -, hcut, hentries⟩ := htried _ _ _ _ hcall _ _ _ _ hret
  exact ⟨hguard, g, _, _, _, _, ps, qs, hcall, hcut, hentries⟩

end TSubSpec.Prisma
