import TSubSpec.Prisma.Simulation

/-!
# `TSubSpec.Prisma.ListSafety`: the list stays well formed, and no frame dangles

`SafeRun` is what an observer of a run wants: every event it sees is `Safe`, and the code never
follows a null or a dangling pointer. `tokenize_safe` proves it for every text, grammar, language
and engine, whether the run returns, throws, or is still going on when its fuel runs out.

The lockstep with the sequence (`mirrors`) shows the events to be `Sound`, and `Event.Sound.safe`
reads off the links. A bad pointer is a failure both levels share, and on sequences
`failsTolerably` excludes it.
-/

set_option autoImplicit false

namespace TSubSpec.Prisma

open TSubSpec.Lib
open TSubSpec.Lib.Traced

variable {search : RegexSearch} {tree : LanguageTree} {h : Heap} {text : Bytes}

/-! ### Safe events -/

/-- There is a `Text` at `p`. -/
def Heap.IsText (h : Heap) (p : TokenListPtr) : Prop := ∃ value, h.payload p = some (.text value)

/-- The list an observer sees has the nodes `nodes` between head and head, and the frames only
point at them or at the sentinel. -/
structure Snapshot.SafeWith (s : Snapshot) (nodes : List TokenListPtr) : Prop where
  /-- Following `next` from the sentinel visits `nodes`, each once, and comes back. -/
  ring : Ring s.heap.next s.heap.prev s.tokenList.head nodes
  length_eq : s.tokenList.length = nodes.length
  /-- No two adjacent nodes are both a `Text`. -/
  separated : nodes.IsChain fun p q => ¬ (s.heap.IsText p ∧ s.heap.IsText q)
  /-- `n.prev.next = n`. -/
  prev_next : ∀ p ∈ nodes, ∃ q, s.heap.prev p = some q ∧ s.heap.next q = some p
  /-- The pointers of every active and suspended frame point into the list. -/
  frames : ∀ f ∈ s.frames, f.startNode ∈ s.tokenList.head :: nodes ∧
    ∀ p, f.currentNode = some p → p ∈ s.tokenList.head :: nodes

/-- An event shows nothing wrong: a list that is observed is well formed, and a node that is
deleted is not the sentinel of its list. -/
def Event.Safe : Event → Prop
  | .loopHead s | .entered s | .left s | .aborted s => ∃ nodes, s.SafeWith nodes
  | .deleted head item => item ≠ head
  | .inside _ => True

/-- A cell with a `Text` payload holds a `Text`. -/
theorem Rep.not_isSyntax {list : TokenList} {cs : List Cell} {c : Cell} (hr : Rep h list cs)
    (hc : c ∈ cs) (ht : h.IsText c.ptr) : c.tok.isSyntax = false := by
  obtain ⟨value, hv⟩ := ht
  rw [hr.spine.payloads c hc] at hv
  rw [← (hr.owns c hc).isSyntax_tok, Option.some.inj hv]
  rfl

/-- Cells without adjacent `Text`s are nodes without adjacent `Text`s. -/
theorem separated_ptrs {cs : List Cell}
    (hsep : (cs.map (·.tok)).IsChain fun t t' => t.isSyntax = true ∨ t'.isSyntax = true)
    (htext : ∀ c ∈ cs, h.IsText c.ptr → c.tok.isSyntax = false) :
    (ptrs cs).IsChain fun p q => ¬ (h.IsText p ∧ h.IsText q) := by
  rw [List.isChain_map] at hsep ⊢
  refine hsep.imp_of_mem_imp fun c c' hc hc' hor hboth => ?_
  rcases hor with hs | hs
  · rw [htext c hc hboth.1] at hs
    cases hs
  · rw [htext c' hc' hboth.2] at hs
    cases hs

/-- A sound list is well formed. -/
theorem Snapshot.Sound.safeWith {s : Snapshot} {cs : List Cell} (hs : s.Sound search tree cs) :
    s.SafeWith (ptrs cs) where
  ring := hs.rep.spine.ring
  length_eq := by
    rw [List.length_map]
    exact hs.rep.length_eq
  separated := separated_ptrs hs.reached.separated fun c hc => hs.rep.not_isSyntax hc
  prev_next p hp := hs.rep.spine.ring.next_prev hp
  frames := hs.frames

/-- A sound event is safe. -/
theorem Event.Sound.safe {w : Event} (hw : w.Sound search tree) : w.Safe := by
  cases w with
  | loopHead s => exact hw.imp' ptrs fun cs hs => hs.safeWith
  | entered s => exact hw.imp' ptrs fun cs hs => hs.safeWith
  | left s => exact hw.imp' ptrs fun cs hs => hs.safeWith
  | aborted s => exact hw.imp' ptrs fun cs hs => hs.1.safeWith
  | deleted head item => exact hw
  | inside h => trivial

/-! ### Safe runs -/

/-- A run shows no malformed list, deletes no sentinel, and follows no dead pointer. The lists that
it shows are those at every head of a loop, every entry and every return. -/
structure SafeRun (x : Traced Fault Event (TokenList × Heap)) : Prop where
  events : ∀ w ∈ x.log, w.Safe
  pointers : x.result ≠ .error .badPointer

/-- A grammar the tree does not hold is looked up in vain, before anything else happens. -/
theorem Seq.tokenize_of_unresolved (search : RegexSearch) {grammar : Nat} (text : Bytes)
    (hg : tree.resolveGrammar grammar = none) (fuel : Nat) :
    (Seq.tokenize search tree fuel text grammar).result = .error .outOfFuel ∨
      (Seq.tokenize search tree fuel text grammar).result = .error .badIndex := by
  match fuel with
  | 0 => exact Or.inl (by rw [Seq.tokenize]; rfl)
  | 1 => exact Or.inl (by rw [Seq.tokenize, Seq.matchGrammar]; rfl)
  | fuel + 2 => exact Or.inr (by rw [Seq.tokenize, Seq.matchGrammar, hg]; rfl)

/-- Tokenizing on sequences never walks past the end, and `substr` only throws when the engine
breaks its contract. -/
theorem Seq.tokenize_fails (fuel grammar : Nat) : FailsIn
    (fun f => f ≠ .badPointer ∧ (PrismContract search tree → f ≠ .outOfRange))
    (Seq.tokenize search tree fuel text grammar) := by
  intro f hf
  cases hg : tree.resolveGrammar grammar with
  | some g =>
    obtain ⟨hptr, hrange, -⟩ := (Seq.failsTolerably fuel).tokenize (fun _ => ⟨g, hg⟩) f hf
    exact ⟨hptr, hrange⟩
  | none =>
    rcases Seq.tokenize_of_unresolved search text hg fuel with h | h
    · cases hf.symm.trans h
      exact ⟨by decide, fun _ => by decide⟩
    · cases hf.symm.trans h
      exact ⟨by decide, fun _ => by decide⟩

/-- A run in lockstep with one on sequences is safe. -/
theorem SafeRun.of_mirrors {x : Traced Fault Event (TokenList × Heap)} {y : Seq.Prog (List Tok)}
    (hxy : Mirrors search tree (Holds h) x y) (hy : y.result ≠ .error .badPointer) : SafeRun x where
  events w hw := (hxy.events w hw).safe
  pointers hx := hy (hxy.error_iff.mp hx)

/-- Tokenizing is safe, with a grammar and with a language. At every head of a loop, every call,
every return and every deletion the list is a ring whose nodes are there and belong to it alone,
and no pointer to a node that was deleted is followed. Nothing is assumed of the search or of the
tree. -/
theorem tokenize_safe (search : RegexSearch) (tree : LanguageTree) (fuel : Nat) (h : Heap)
    (text : Bytes) :
    (∀ grammar, SafeRun ((tokenize search tree fuel text grammar).run h)) ∧
      ∀ language, SafeRun ((tokenizeLanguage search tree fuel text language).run h) := by
  refine ⟨fun grammar => ?_, fun language => ?_⟩
  · refine .of_mirrors (mirrors fuel).tokenize fun hf => ?_
    exact (Seq.tokenize_fails fuel grammar _ hf).1 rfl
  · refine .of_mirrors (tokenizeLanguage_mirrors fuel text language) fun hf => ?_
    exact (Seq.tokenizeLanguage_tolerates fuel text language _ hf).1 rfl

end TSubSpec.Prisma
