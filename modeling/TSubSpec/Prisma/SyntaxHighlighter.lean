import TSubSpec.Prisma.TokenList

/-!
# `TSubSpec.Prisma.SyntaxHighlighter`: `tokenize` and `matchGrammar`

The functions of `SyntaxHighlighter.cpp` over the linked list. The arguments the source takes
by reference or by pointer (`tokenList`, `rematch`) are passed in and returned. `frames` are
the frames of the calls of `matchGrammar` on the same list that wait for this one. Only the
events read them.

`tokenize`, `matchGrammar`, its two loops and the loops of the greedy branch share one bound,
`fuel`, on their nesting and their turns.
-/

set_option autoImplicit false

namespace TSubSpec.Prisma

open TSubSpec.Lib
open Prog

/-- `RematchOptions`: the turn that caused a rematch, and how far the rematch goes. -/
structure RematchOptions where
  token : Bytes
  reach : Nat
  j : Nat
  deriving DecidableEq, Repr

namespace RematchOptions

/-- `rematch && rematch->j == x && rematch->token == token.name()`. -/
def isCause (rematch : Option RematchOptions) (e : Entry) : Bool :=
  match rematch with
  | some r => r.j == e.x && r.token == e.token
  | none => false

/-- `rematch && pos >= rematch->reach`. -/
def isReached (rematch : Option RematchOptions) (pos : Nat) : Bool :=
  match rematch with
  | some r => decide (r.reach ≤ pos)
  | none => false

/-- `if (rematch && reach > rematch->reach) rematch->reach = reach`. -/
def extend (rematch : Option RematchOptions) (reach : Nat) : Option RematchOptions :=
  rematch.map fun r => if r.reach < reach then { r with reach } else r

end RematchOptions

/-- How the loop over the nodes ends: the next pattern follows, or `matchGrammar` returns. -/
inductive Flow where
  | finished
  | returned
  deriving DecidableEq, Repr

/-- What the search at a `Text` node leads to: `break`, `continue` from a node, or a match to
write into the list. `str` is the text of the `removeCount` nodes from `currentNode` on, and
`matchIndex` is the match's offset in it. -/
inductive Located where
  | stop
  | skip (currentNode : TokenListPtr) (pos : Nat)
  | found (currentNode : TokenListPtr) (pos : Nat) (str : Bytes) (matchIndex : Nat)
      (view : Bytes) (removeCount : Nat)

/-- `while (from >= p) { currentNode = currentNode->next; p += currentNode->length(); }`. -/
def findNode (start : Nat) : Nat → TokenListPtr → Nat → Prog (TokenListPtr × Nat)
  | 0, _, _ => raise .outOfFuel
  | fuel + 1, currentNode, p =>
    if p ≤ start then do
      let currentNode := (← node currentNode).next
      let length := (← node currentNode).payload.length
      findNode start fuel currentNode (p + length)
    else return (currentNode, p)

/-- The loop `for (k = currentNode; k != head && (p < to || !k->isSyntax()); k = k->next)`: the
final `removeCount` and `p`. -/
def countAffected (head : TokenListPtr) (stop : Nat) :
    Nat → TokenListPtr → Nat → Nat → Prog (Nat × Nat)
  | 0, _, _, _ => raise .outOfFuel
  | fuel + 1, k, removeCount, p =>
    if k = head then return (removeCount, p)
    else do
      let n ← node k
      if p < stop || !n.payload.isSyntax then
        countAffected head stop fuel n.next (removeCount + 1) (p + n.payload.length)
      else return (removeCount, p)

section

variable (search : RegexSearch) (tree : LanguageTree)

/-- The search at a `Text` node with the value `value`, and for a greedy pattern the search
for the nodes the match covers. -/
def locate (fuel : Nat) (text : Bytes) (tokenList : TokenList) (pattern : Pattern)
    (currentNode : TokenListPtr) (pos : Nat) (value : Bytes) : Prog Located :=
  if pattern.greedy then
    match pattern.matchText search pos text with
    | none => return .stop
    | some (matchIndex, view) =>
      if text.length ≤ matchIndex then return .stop
      else do
        let length := (← node currentNode).payload.length
        let (currentNode, p) ← findNode matchIndex fuel currentNode (pos + length)
        let current ← node currentNode
        let pos := p - current.payload.length
        if current.payload.isSyntax then return .skip currentNode pos
        else do
          let (removeCount, p) ←
            countAffected tokenList.head (matchIndex + view.length) fuel currentNode 1 pos
          let str ← orRaise .outOfRange (substr? text pos (p - pos))
          return .found currentNode pos str (matchIndex - pos) view (removeCount - 1)
  else
    match pattern.matchText search 0 value with
    | none => return .skip currentNode pos
    | some (matchIndex, view) => return .found currentNode pos value matchIndex view 1

/-- The loop body up to the match: a `Syntax` is passed over, a `Text` is searched. -/
def inspect (fuel : Nat) (text : Bytes) (tokenList : TokenList) (pattern : Pattern)
    (currentNode : TokenListPtr) (pos : Nat) : Prog Located := do
  match (← node currentNode).payload with
  | .text value => locate search fuel text tokenList pattern currentNode pos value
  | _ => return .skip currentNode pos

/-- `if (s.size()) p = addAfter(p, s)`. -/
def addText (list : TokenList) (p : TokenListPtr) (s : Bytes) :
    Prog (TokenListPtr × TokenList) :=
  if s.isEmpty then return (p, list) else list.addAfterText p s

/-- Splits `str` at the match, writes `before` and removes the covered nodes: `removeFrom`,
the list, `before` and `after`. -/
def cutOut (list : TokenList) (currentNode : TokenListPtr) (str : Bytes) (matchIndex : Nat)
    (view : Bytes) (removeCount : Nat) : Prog (TokenListPtr × TokenList × Bytes × Bytes) := do
  let before ← orRaise .outOfRange (substr? str 0 matchIndex)
  let after ← orRaise .outOfRange (substr? str (matchIndex + view.length) str.length)
  let (removeFrom, list) ← addText list (← node currentNode).prev before
  let list ← list.removeRange removeFrom removeCount
  return (removeFrom, list, before, after)

/-- Writes the `Syntax` of a match, and `after`: the `Syntax`, the list, and what the
moved-from `tokenEntries` become. -/
def pasteIn (list : TokenList) (removeFrom : TokenListPtr) (token : Bytes) (pattern : Pattern)
    (view : Bytes) (tokenEntries : TokenList) (after : Bytes) :
    Prog (TokenListPtr × TokenList × TokenList) := do
  let (currentNode, list, tokenEntries) ←
    list.addAfterSyntax removeFrom token tokenEntries pattern.aliasName view.length
  let (_, list) ← addText list currentNode after
  return (currentNode, list, tokenEntries)

/-- The arguments of `matchGrammar` that stay as they are during the call. The list and the rematch
options are passed beside them. -/
structure Call where
  text : Bytes
  grammar : Nat
  startNode : TokenListPtr
  startPos : Nat
  frames : List Frame

/-- The frame of the call while its loop is at `currentNode`. -/
def Call.at (c : Call) (currentNode : TokenListPtr) : List Frame :=
  ⟨c.startNode, some currentNode⟩ :: c.frames

/-- What an observer sees of the call with the list `tokenList` and the frames `frames`. -/
def Call.see (c : Call) (tokenList : TokenList) (frames : List Frame) : Prog Snapshot := do
  return ⟨← get, tokenList, c.text, c.grammar, frames⟩

mutual

/-- `SyntaxHighlighter::tokenize(text, grammar)`: a list of one text node is made, and the grammar
is matched on it. -/
def tokenize : Nat → Bytes → Nat → Prog TokenList
  | 0, _, _ => raise .outOfFuel
  | fuel + 1, text, grammar => do
    let tokenList ← TokenList.new text
    let (tokenList, _) ← matchGrammar fuel ⟨text, grammar, tokenList.head, 0, []⟩ tokenList none
    return tokenList

/-- The children of the node for a match: the tokens of the match when the pattern has an
inside grammar, else its text. -/
def tokenEntries : Nat → Call → Bytes → Option Nat → Prog TokenList
  | 0, _, _, _ => raise .outOfFuel
  | fuel + 1, c, view, some inside => do
    emit (.inside ⟨c.text, c.grammar, view, inside⟩)
    tokenize fuel view inside
  | _ + 1, _, view, none => TokenList.new view

/-- `SyntaxHighlighter::matchGrammar`: the patterns of the grammar are tried one after the other,
from the node `startNode` on. -/
def matchGrammar : Nat → Call → TokenList → Option RematchOptions →
    Prog (TokenList × Option RematchOptions)
  | 0, _, _, _ => raise .outOfFuel
  | fuel + 1, c, tokenList, rematch => do
    emit (.entered (← c.see tokenList (⟨c.startNode, none⟩ :: c.frames)))
    let g ← orRaise .badIndex (tree.resolveGrammar c.grammar)
    let (tokenList, rematch) ← matchPatterns fuel c g.entries tokenList rematch
    emit (.left (← c.see tokenList (⟨c.startNode, none⟩ :: c.frames)))
    return (tokenList, rematch)

/-- The two loops over the tokens of a grammar and the patterns of a token. -/
def matchPatterns : Nat → Call → List Entry → TokenList → Option RematchOptions →
    Prog (TokenList × Option RematchOptions)
  | 0, _, _, _, _ => raise .outOfFuel
  | _ + 1, _, [], tokenList, rematch => return (tokenList, rematch)
  | fuel + 1, c, e :: es, tokenList, rematch =>
    if RematchOptions.isCause rematch e then return (tokenList, rematch)
    else do
      let pattern ← orRaise .badIndex (tree.resolvePattern e.pattern)
      let _ ← orRaise .badIndex (tree.resolveInside pattern)
      let start ← node c.startNode
      let (flow, tokenList, rematch) ←
        matchNodes fuel c e pattern start.next c.startPos tokenList rematch
      match flow with
      | .returned => return (tokenList, rematch)
      | .finished => matchPatterns fuel c es tokenList rematch

/-- The loop over the nodes for one pattern, from the node `currentNode` at `pos` on. -/
def matchNodes : Nat → Call → Entry → Pattern → TokenListPtr → Nat → TokenList →
    Option RematchOptions → Prog (Flow × TokenList × Option RematchOptions)
  | 0, _, _, _, _, _, _, _ => raise .outOfFuel
  | fuel + 1, c, e, pattern, currentNode, pos, tokenList, rematch => do
    emit (.loopHead (← c.see tokenList (c.at currentNode)))
    if currentNode = tokenList.head then return (.finished, tokenList, rematch)
    else if RematchOptions.isReached rematch pos then return (.finished, tokenList, rematch)
    else if c.text.length < tokenList.length then do
      -- "Something went terribly wrong, ABORT, ABORT!"
      emit (.aborted (← c.see tokenList (c.at currentNode)))
      return (.returned, tokenList, rematch)
    else do
      match ← inspect search fuel c.text tokenList pattern currentNode pos with
      | .stop => return (.finished, tokenList, rematch)
      | .skip currentNode pos => do
        let n ← node currentNode
        matchNodes fuel c e pattern n.next (pos + n.payload.length) tokenList rematch
      | .found currentNode pos str matchIndex view removeCount => do
        let reach := pos + str.length
        let rematch := RematchOptions.extend rematch reach
        let (removeFrom, tokenList, before, after) ←
          cutOut tokenList currentNode str matchIndex view removeCount
        let pos := pos + before.length
        let entries ← tokenEntries fuel c view pattern.inside
        let (currentNode, tokenList, entries) ←
          pasteIn tokenList removeFrom e.token pattern view entries after
        let (tokenList, rematch) ←
          rematchRemoved fuel c e currentNode pos reach tokenList rematch removeCount
        entries.destroy
        let n ← node currentNode
        matchNodes fuel c e pattern n.next (pos + n.payload.length) tokenList rematch

/-- The rematch after a greedy match removed more than its own `Text`: the patterns in front of this
one are tried again, up to the end of what was removed. -/
def rematchRemoved : Nat → Call → Entry → TokenListPtr → Nat → Nat → TokenList →
    Option RematchOptions → Nat → Prog (TokenList × Option RematchOptions)
  | 0, _, _, _, _, _, _, _, _ => raise .outOfFuel
  | fuel + 1, c, e, currentNode, pos, reach, tokenList, rematch, removeCount =>
    if 1 < removeCount then do
      let current ← node currentNode
      let (tokenList, nestedRematch) ←
        matchGrammar fuel ⟨c.text, c.grammar, current.prev, pos, c.at currentNode⟩ tokenList
          (some ⟨e.token, reach, e.x⟩)
      -- The reach may have been extended by the rematching.
      return (tokenList,
        RematchOptions.extend rematch ((nestedRematch.map (·.reach)).getD reach))
    else return (tokenList, rematch)

end

/-- The loop body from a match to the rematch: the `Syntax` written for the match, the text before
it, the list, and the moved-from `tokenEntries`. -/
def writeMatch (fuel : Nat) (c : Call) (e : Entry) (pattern : Pattern) (tokenList : TokenList)
    (currentNode : TokenListPtr) (str : Bytes) (matchIndex : Nat) (view : Bytes)
    (removeCount : Nat) : Prog (TokenListPtr × Bytes × TokenList × TokenList) := do
  let (removeFrom, tokenList, before, after) ←
    cutOut tokenList currentNode str matchIndex view removeCount
  let entries ← tokenEntries search tree fuel c view pattern.inside
  let (currentNode, tokenList, entries) ←
    pasteIn tokenList removeFrom e.token pattern view entries after
  return (currentNode, before, tokenList, entries)

/-- The loop over the nodes, with its body up to the rematch as one step. -/
theorem matchNodes_eq (fuel : Nat) (c : Call) (e : Entry) (pattern : Pattern)
    (currentNode : TokenListPtr) (pos : Nat) (tokenList : TokenList)
    (rematch : Option RematchOptions) :
    matchNodes search tree (fuel + 1) c e pattern currentNode pos tokenList rematch = (do
      emit (.loopHead (← c.see tokenList (c.at currentNode)))
      if currentNode = tokenList.head then return (.finished, tokenList, rematch)
      else if RematchOptions.isReached rematch pos then return (.finished, tokenList, rematch)
      else if c.text.length < tokenList.length then do
        emit (.aborted (← c.see tokenList (c.at currentNode)))
        return (.returned, tokenList, rematch)
      else do
        match ← inspect search fuel c.text tokenList pattern currentNode pos with
        | .stop => return (.finished, tokenList, rematch)
        | .skip currentNode pos => do
          let n ← node currentNode
          matchNodes search tree fuel c e pattern n.next (pos + n.payload.length) tokenList rematch
        | .found currentNode pos str matchIndex view removeCount => do
          let (currentNode, before, tokenList, entries) ←
            writeMatch search tree fuel c e pattern tokenList currentNode str matchIndex view
              removeCount
          let (tokenList, rematch) ←
            rematchRemoved search tree fuel c e currentNode (pos + before.length)
              (pos + str.length) tokenList (RematchOptions.extend rematch (pos + str.length))
              removeCount
          entries.destroy
          let n ← node currentNode
          matchNodes search tree fuel c e pattern n.next (pos + before.length + n.payload.length)
            tokenList rematch) := by
  rw [matchNodes]
  simp only [writeMatch, bind_assoc, pure_bind]

/-- `SyntaxHighlighter::tokenize(text, language)`, with `LanguageTree::find`. -/
def tokenizeLanguage (fuel : Nat) (text language : Bytes) : Prog TokenList :=
  match tree.findIndex language with
  | some grammar => do
    let _ ← orRaise .badIndex (tree.resolveGrammar grammar)
    tokenize search tree fuel text grammar
  | none => TokenList.new text

end

end TSubSpec.Prisma
