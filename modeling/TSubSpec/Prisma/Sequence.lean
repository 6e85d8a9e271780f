import Mathlib.Algebra.Ring.Nat
import TSubSpec.Prisma.SyntaxHighlighter

/-!
# `TSubSpec.Prisma.Sequence`: the tokenizer on sequences

The same algorithm without a heap. A list is the sequence of its nodes, and the loop over the
nodes holds the nodes from `currentNode` on. What lies before them is only counted, because the
algorithm never looks at it again. The functions spend `fuel` exactly where their counterparts
over the linked list do, so the two levels run in lockstep (`Simulation.lean`).

A node carries a `label`: the address of a node that was in the list when the observed call
began, or `none` for a node the call made. Labels take no part in the computation. They say
which nodes survive a call.

The only logged event is the `Handover` of a text to an inside grammar.
-/

set_option autoImplicit false

namespace TSubSpec.Prisma

open TSubSpec.Lib

/-- A node without its links, and with its children: the abstract token tree. A list of them is what
a call of `tokenize` returns. -/
inductive Tok where
  | text (value : Bytes)
  | syn (type : Bytes) (children : List Tok) (aliasName : Bytes) (length : Nat)

namespace Tok

/-- `length()`. -/
def length : Tok → Nat
  | .text value => value.length
  | .syn _ _ _ length => length

/-- `isSyntax()`. -/
def isSyntax : Tok → Bool
  | .text _ => false
  | .syn .. => true

/-- The length of a text token is that of its text. -/
@[simp] theorem length_text (v : Bytes) : (text v).length = v.length := rfl

/-- The length of a syntax token is the one that was given to it. -/
@[simp] theorem length_syn (ty : Bytes) (ch : List Tok) (al : Bytes) (n : Nat) :
    (syn ty ch al n).length = n := rfl

/-- A text token is no syntax token. -/
@[simp] theorem isSyntax_text (v : Bytes) : (text v).isSyntax = false := rfl

/-- A syntax token is one. -/
@[simp] theorem isSyntax_syn (ty : Bytes) (ch : List Tok) (al : Bytes) (n : Nat) :
    (syn ty ch al n).isSyntax = true := rfl

/-- A node that is not a `Syntax` is a `Text`. -/
theorem eq_text_of_not_isSyntax {t : Tok} (h : t.isSyntax = false) : ∃ v, t = text v := by
  cases t with
  | text v => exact ⟨v, rfl⟩
  | syn => cases h

end Tok

/-- A node of the sequence: a token, with a label that tells nodes apart where the addresses
matter. -/
structure Node where
  label : Option TokenListPtr
  tok : Tok

/-- The characters a run of nodes covers: the sum of the `length()`s. -/
def width (ns : List Node) : Nat := (ns.map fun n => n.tok.length).sum

/-- No nodes have no width. -/
@[simp] theorem width_nil : width [] = 0 := rfl

/-- The width of nodes begins with the length of the first token. -/
@[simp] theorem width_cons (n : Node) (ns : List Node) :
    width (n :: ns) = n.tok.length + width ns := by
  simp [width]

/-- The widths of two stretches of nodes add up. -/
@[simp] theorem width_append (xs ys : List Node) : width (xs ++ ys) = width xs + width ys := by
  simp [width]

namespace Seq

/-- Programs on sequences. -/
abbrev Prog := Traced Fault Handover

/-- The value of a lookup that is undefined behaviour, or an exception, when it fails. -/
def orRaise {α : Type} (e : Fault) : Option α → Prog α
  | some a => pure a
  | none => Traced.raise e

/-- A new `Text` node, unless the text is empty. -/
def textNode (s : Bytes) : List Node :=
  if s.isEmpty then [] else [⟨none, .text s⟩]

/-- What the search at a node leads to. `kept` are the nodes passed over. -/
inductive Located where
  | stop
  | skip (kept : List Node) (current : Node) (rest : List Node) (pos : Nat)
  | found (kept : List Node) (pos : Nat) (str : Bytes) (matchIndex : Nat) (view : Bytes)
      (removeCount : Nat) (rest : List Node)

/-- The node that contains the offset `start`, with the end `p` of the node at hand. -/
def findNode (start : Nat) : Nat → List Node → Node → List Node → Nat →
    Prog (List Node × Node × List Node × Nat)
  | 0, _, _, _, _ => Traced.raise .outOfFuel
  | fuel + 1, kept, current, rest, p =>
    if p ≤ start then
      match rest with
      | [] => Traced.raise .badPointer
      | n :: rest => findNode start fuel (kept ++ [current]) n rest (p + n.tok.length)
    else return (kept, current, rest, p)

/-- The nodes a greedy match up to `stop` covers: their number, their end, and what follows. -/
def countAffected (stop : Nat) : Nat → List Node → Nat → Nat → Prog (Nat × Nat × List Node)
  | 0, _, _, _ => Traced.raise .outOfFuel
  | _ + 1, [], removeCount, p => return (removeCount, p, [])
  | fuel + 1, k :: ks, removeCount, p =>
    if p < stop || !k.tok.isSyntax then
      countAffected stop fuel ks (removeCount + 1) (p + k.tok.length)
    else return (removeCount, p, k :: ks)

section

variable (search : RegexSearch) (tree : LanguageTree)

/-- The search at the `Text` node `current` with the value `value`. -/
def locate (fuel : Nat) (text : Bytes) (pattern : Pattern) (current : Node) (rest : List Node)
    (pos : Nat) (value : Bytes) : Prog Located :=
  if pattern.greedy then
    match pattern.matchText search pos text with
    | none => return .stop
    | some (matchIndex, view) =>
      if text.length ≤ matchIndex then return .stop
      else do
        let (kept, current, rest, p) ←
          findNode matchIndex fuel [] current rest (pos + current.tok.length)
        let pos := p - current.tok.length
        if current.tok.isSyntax then return .skip kept current rest pos
        else do
          let (removeCount, p, rest) ←
            countAffected (matchIndex + view.length) fuel (current :: rest) 1 pos
          let str ← orRaise .outOfRange (substr? text pos (p - pos))
          return .found kept pos str (matchIndex - pos) view (removeCount - 1) rest
  else
    match pattern.matchText search 0 value with
    | none => return .skip [] current rest pos
    | some (matchIndex, view) => return .found [] pos value matchIndex view 1 rest

/-- The loop body up to the match. -/
def inspect (fuel : Nat) (text : Bytes) (pattern : Pattern) (current : Node)
    (rest : List Node) (pos : Nat) : Prog Located :=
  match current.tok with
  | .text value => locate search fuel text pattern current rest pos value
  | .syn .. => return .skip [] current rest pos

/-- Splits `str` at the match: `before` and `after`. -/
def cutOut (str : Bytes) (matchIndex : Nat) (view : Bytes) : Prog (Bytes × Bytes) := do
  let before ← orRaise .outOfRange (substr? str 0 matchIndex)
  let after ← orRaise .outOfRange (substr? str (matchIndex + view.length) str.length)
  return (before, after)

/-- The arguments of `matchGrammar` that stay as they are during the call. `before` is the
number of nodes up to and including `startNode`, the sentinel not counted. -/
structure Call where
  text : Bytes
  grammar : Nat
  before : Nat
  startPos : Nat

mutual

/-- `tokenize` on sequences: the whole text is one node, and the grammar is matched on it. -/
def tokenize : Nat → Bytes → Nat → Prog (List Tok)
  | 0, _, _ => Traced.raise .outOfFuel
  | fuel + 1, text, grammar => do
    let (nodes, _) ← matchGrammar fuel ⟨text, grammar, 0, 0⟩ [⟨none, .text text⟩] none
    return nodes.map (·.tok)

/-- `tokenEntries` on sequences. -/
def tokenEntries : Nat → Call → Bytes → Option Nat → Prog (List Tok)
  | 0, _, _, _ => Traced.raise .outOfFuel
  | fuel + 1, c, view, some inside => do
    Traced.emit ⟨c.text, c.grammar, view, inside⟩
    tokenize fuel view inside
  | _ + 1, _, view, none => return [.text view]

/-- `matchGrammar` on sequences: the patterns of the grammar are tried one after the other. -/
def matchGrammar : Nat → Call → List Node → Option RematchOptions →
    Prog (List Node × Option RematchOptions)
  | 0, _, _, _ => Traced.raise .outOfFuel
  | fuel + 1, c, nodes, rematch => do
    let g ← orRaise .badIndex (tree.resolveGrammar c.grammar)
    matchPatterns fuel c g.entries nodes rematch

/-- `matchPatterns` on sequences: one turn for each pattern, and each starts at the same node. -/
def matchPatterns : Nat → Call → List Entry → List Node → Option RematchOptions →
    Prog (List Node × Option RematchOptions)
  | 0, _, _, _, _ => Traced.raise .outOfFuel
  | _ + 1, _, [], nodes, rematch => return (nodes, rematch)
  | fuel + 1, c, e :: es, nodes, rematch =>
    if RematchOptions.isCause rematch e then return (nodes, rematch)
    else do
      let pattern ← orRaise .badIndex (tree.resolvePattern e.pattern)
      let _ ← orRaise .badIndex (tree.resolveInside pattern)
      let (flow, nodes, rematch) ← matchNodes fuel c e pattern c.before nodes c.startPos rematch
      match flow with
      | .returned => return (nodes, rematch)
      | .finished => matchPatterns fuel c es nodes rematch

/-- `matchNodes` on sequences. `before` is the number of nodes in front of `nodes`. -/
def matchNodes : Nat → Call → Entry → Pattern → Nat → List Node → Nat →
    Option RematchOptions → Prog (Flow × List Node × Option RematchOptions)
  | 0, _, _, _, _, _, _, _ => Traced.raise .outOfFuel
  | _ + 1, _, _, _, _, [], _, rematch => return (.finished, [], rematch)
  | fuel + 1, c, e, pattern, before, n :: ns, pos, rematch =>
    if RematchOptions.isReached rematch pos then return (.finished, n :: ns, rematch)
    else if c.text.length < before + (n :: ns).length then return (.returned, n :: ns, rematch)
    else do
      match ← inspect search fuel c.text pattern n ns pos with
      | .stop => return (.finished, n :: ns, rematch)
      | .skip kept current rest pos => do
        let (flow, nodes, rematch) ←
          matchNodes fuel c e pattern (before + kept.length + 1) rest (pos + current.tok.length)
            rematch
        return (flow, kept ++ current :: nodes, rematch)
      | .found kept pos str matchIndex view removeCount rest => do
        let reach := pos + str.length
        let rematch := RematchOptions.extend rematch reach
        let (b, a) ← cutOut str matchIndex view
        let pos := pos + b.length
        let children ← tokenEntries fuel c view pattern.inside
        let kept := kept ++ textNode b
        let syn : Node := ⟨none, .syn e.token children pattern.aliasName view.length⟩
        let (rest, rematch) ←
          rematchRemoved fuel c e (before + kept.length) syn (textNode a ++ rest) pos reach
            rematch removeCount
        let (flow, nodes, rematch) ←
          matchNodes fuel c e pattern (before + kept.length + 1) rest (pos + view.length) rematch
        return (flow, kept ++ syn :: nodes, rematch)

/-- `rematchRemoved` on sequences: what follows the `Syntax` node `syn`. -/
def rematchRemoved : Nat → Call → Entry → Nat → Node → List Node → Nat → Nat →
    Option RematchOptions → Nat → Prog (List Node × Option RematchOptions)
  | 0, _, _, _, _, _, _, _, _, _ => Traced.raise .outOfFuel
  | fuel + 1, c, e, before, syn, rest, pos, reach, rematch, removeCount =>
    if 1 < removeCount then do
      let (nodes, nestedRematch) ←
        matchGrammar fuel ⟨c.text, c.grammar, before, pos⟩ (syn :: rest)
          (some ⟨e.token, reach, e.x⟩)
      return (nodes.tail,
        RematchOptions.extend rematch ((nestedRematch.map (·.reach)).getD reach))
    else return (rest, rematch)

end

/-- `tokenize(text, language)` on sequences. -/
def tokenizeLanguage (fuel : Nat) (text language : Bytes) : Prog (List Tok) :=
  match tree.findIndex language with
  | some grammar => do
    let _ ← orRaise .badIndex (tree.resolveGrammar grammar)
    tokenize search tree fuel text grammar
  | none => return [.text text]

end

end Seq

end TSubSpec.Prisma
