import TSubSpec.Lib.Traced
import TSubSpec.Prisma.Highlight

/-!
# `TSubSpec.Prisma.TokenList`: the linked list of `TokenList.h` and `TokenList.cpp`

A `TokenListPtr` is an address into a `Heap` of nodes, and a `TokenList` object is the
address of its sentinel together with the `length` counter. The functions of `TokenList.cpp`
are programs over the heap, statement by statement. A null pointer or a freed node that a
program follows is the fault `badPointer`.

A program also logs `Event`s. They record what an observer of the run sees at a loop head, at
the entry and the return of a call, and at each `delete`. They do not influence the run.
-/

set_option autoImplicit false

namespace TSubSpec.Prisma

open TSubSpec.Lib

/-- The address of a node. -/
abbrev TokenListPtr := Nat

/-- The null pointer. -/
def nullptr : TokenListPtr := 0

/-- A `TokenList` object: the sentinel and the node counter. Its nodes are on the heap. -/
structure TokenList where
  head : TokenListPtr
  length : Nat
  deriving DecidableEq, Repr

/-- What a node holds beside its links: nothing (`TokenListNode`, the sentinel), the
characters of a `Text`, or the members of a `Syntax`. -/
inductive Payload where
  | sentinel
  | text (value : Bytes)
  | syn (type : Bytes) (children : TokenList) (aliasName : Bytes) (length : Nat)
  deriving DecidableEq, Repr

/-- The virtual `length()`. -/
def Payload.length : Payload → Nat
  | .sentinel => 0
  | .text value => value.length
  | .syn _ _ _ length => length

/-- The virtual `isSyntax()`. Only a `Text` answers `false`. -/
def Payload.isSyntax : Payload → Bool
  | .sentinel => true
  | .text _ => false
  | .syn .. => true

/-- A node: its two links, and what it holds. -/
structure TokenListNode where
  prev : TokenListPtr
  next : TokenListPtr
  payload : Payload
  deriving DecidableEq, Repr

/-- The memory: the live nodes and the next address `new` returns. No live node is at or
above that address, and none is at the null pointer. -/
structure Heap where
  cell : TokenListPtr → Option TokenListNode
  fresh : TokenListPtr
  cell_of_le : ∀ p, fresh ≤ p → cell p = none
  cell_null : cell nullptr = none
  fresh_pos : nullptr < fresh

namespace Heap

/-- The memory before the first `new`. -/
def empty : Heap where
  cell _ := none
  fresh := 1
  cell_of_le _ _ := rfl
  cell_null := rfl
  fresh_pos := Nat.one_pos

/-- `new`: the node at the next free address. -/
def alloc (h : Heap) (n : TokenListNode) : Heap where
  cell p := if p = h.fresh then some n else h.cell p
  fresh := h.fresh + 1
  cell_of_le p hp := by
    have hlt : h.fresh < p := hp
    rw [if_neg (Nat.ne_of_gt hlt)]
    exact h.cell_of_le p (Nat.le_of_lt hlt)
  cell_null := by
    rw [if_neg (Nat.ne_of_lt h.fresh_pos)]
    exact h.cell_null
  fresh_pos := Nat.lt_succ_of_lt h.fresh_pos

/-- A write to the node at `p`. A write to a dead address changes nothing. -/
def modify (h : Heap) (p : TokenListPtr) (f : TokenListNode → TokenListNode) : Heap where
  cell q := if q = p then (h.cell q).map f else h.cell q
  fresh := h.fresh
  cell_of_le q hq := by rw [h.cell_of_le q hq]; simp
  cell_null := by rw [h.cell_null]; simp
  fresh_pos := h.fresh_pos

/-- `delete`: the node at `p` is no longer live. -/
def erase (h : Heap) (p : TokenListPtr) : Heap where
  cell q := if q = p then none else h.cell q
  fresh := h.fresh
  cell_of_le q hq := by rw [h.cell_of_le q hq]; simp
  cell_null := by rw [h.cell_null]; simp
  fresh_pos := h.fresh_pos

end Heap

/-- How a run can fail. `outOfFuel` is the model's own bound and says nothing about the
program. `outOfRange` is `std::out_of_range`. `badIndex` is `operator[]` past the end of a
vector. `badPointer` is a null or dangling pointer. -/
inductive Fault where
  | outOfFuel
  | outOfRange
  | badIndex
  | badPointer
  deriving DecidableEq, Repr

/-- The node pointers a call of `matchGrammar` holds on its stack frame. `currentNode` is
`none` outside the loop over the nodes. -/
structure Frame where
  startNode : TokenListPtr
  currentNode : Option TokenListPtr
  deriving DecidableEq, Repr

/-- What an observer sees: the memory, the list, the text and the grammar, and the frames of all
calls of `matchGrammar` that work on this list, innermost first. -/
structure Snapshot where
  heap : Heap
  tokenList : TokenList
  text : Bytes
  grammar : Nat
  frames : List Frame

/-- A text handed to an inside grammar: tokenizing `text` with `grammar` calls
`tokenize(view, inside)`. -/
structure Handover where
  text : Bytes
  grammar : Nat
  view : Bytes
  inside : Nat
  deriving DecidableEq, Repr

/-- The events of a run. -/
inductive Event where
  /-- The condition of the loop over the nodes is evaluated. -/
  | loopHead (s : Snapshot)
  /-- `matchGrammar` is entered. -/
  | entered (s : Snapshot)
  /-- `matchGrammar` returns. -/
  | left (s : Snapshot)
  /-- The guard on the list length makes `matchGrammar` return. -/
  | aborted (s : Snapshot)
  /-- `removeRange` on the list with sentinel `head` deletes `item`. -/
  | deleted (head item : TokenListPtr)
  /-- `tokenize` is called for the content of a match. -/
  | inside (h : Handover)

/-- Programs over the heap. -/
abbrev Prog := StateT Heap (Traced Fault Event)

namespace Prog

/-- Logs an event. -/
def emit (w : Event) : Prog Unit := StateT.lift (Traced.emit w)

/-- Fails. -/
def raise {α : Type} (e : Fault) : Prog α := StateT.lift (Traced.raise e)

/-- The value of a lookup that is undefined behaviour, or an exception, when it fails. -/
def orRaise {α : Type} (e : Fault) : Option α → Prog α
  | some a => pure a
  | none => raise e

/-- `*p`. -/
def node (p : TokenListPtr) : Prog TokenListNode := do
  orRaise .badPointer ((← get).cell p)

/-- `new TokenListNode(...)`, `new Text(...)`, `new Syntax(...)`. -/
def alloc (n : TokenListNode) : Prog TokenListPtr := do
  let h ← get
  set (h.alloc n)
  return h.fresh

/-- `p->next = q`. -/
def setNext (p q : TokenListPtr) : Prog Unit := do
  let _ ← node p
  modify (·.modify p fun n => { n with next := q })

/-- `p->prev = q`. -/
def setPrev (p q : TokenListPtr) : Prog Unit := do
  let _ ← node p
  modify (·.modify p fun n => { n with prev := q })

/-- The memory of the node at `p` is returned. -/
def free (p : TokenListPtr) : Prog Unit := do
  let _ ← node p
  modify (·.erase p)

end Prog

open Prog

mutual

/-- The loop of `TokenList::~TokenList` from the node `next` on, and `delete head`. -/
def deleteFrom : Nat → TokenListPtr → TokenListPtr → Prog Unit
  | 0, _, _ => raise .outOfFuel
  | fuel + 1, head, next =>
    if next = head then free head
    else do
      let current ← node next
      deletePayload fuel current.payload
      free next
      deleteFrom fuel head current.next

/-- The member destructors of a node: a `Syntax` destroys its children. -/
def deletePayload : Nat → Payload → Prog Unit
  | 0, _ => raise .outOfFuel
  | fuel + 1, .syn _ children _ _ => do
    let head ← node children.head
    deleteFrom fuel children.head head.next
  | _ + 1, _ => pure ()

end

namespace TokenList

/-- `TokenList::TokenList(std::string_view)`: a sentinel, and a text node behind it. The sentinel's
`prev` stays null. -/
def new (value : Bytes) : Prog TokenList := do
  let head ← alloc ⟨nullptr, nullptr, .sentinel⟩
  let newNode ← alloc ⟨head, head, .text value⟩
  setNext head newNode
  return ⟨head, 1⟩

/-- `TokenList::~TokenList()`. Every node is freed once, so the number of addresses given out
bounds the loop turns and the nesting of the calls. -/
def destroy (list : TokenList) : Prog Unit := do
  let head ← node list.head
  deleteFrom (← get).fresh list.head head.next

/-- `TokenList::TokenList(TokenList&& old)`: the new list and what `old` becomes. -/
def move (old : TokenList) : Prog (TokenList × TokenList) := do
  let head ← alloc ⟨nullptr, nullptr, .sentinel⟩
  setNext head head
  return (old, ⟨head, 0⟩)

/-- `TokenList::addAfter(node, value)`: the new node and the list. -/
def addAfterText (list : TokenList) (p : TokenListPtr) (value : Bytes) :
    Prog (TokenListPtr × TokenList) := do
  let next := (← node p).next
  let newNode ← alloc ⟨p, next, .text value⟩
  setNext p newNode
  setPrev next newNode
  return (newNode, { list with length := list.length + 1 })

/-- `TokenList::addAfter(node, type, children, alias, textLength)`: the new node, the list, and
what the moved-from `children` become. -/
def addAfterSyntax (list : TokenList) (p : TokenListPtr) (type : Bytes) (children : TokenList)
    (aliasName : Bytes) (textLength : Nat) : Prog (TokenListPtr × TokenList × TokenList) := do
  let next := (← node p).next
  let (children, movedFrom) ← move children
  let newNode ← alloc ⟨p, next, .syn type children aliasName textLength⟩
  setNext p newNode
  setPrev next newNode
  return (newNode, { list with length := list.length + 1 }, movedFrom)

/-- `delete item` in `removeRange`: the destructor of the node, and its memory. -/
def deleteItem (item : TokenListPtr) : Prog Unit := do
  let n ← node item
  deletePayload (← get).fresh n.payload
  free item

/-- `TokenList::removeRange(node, count)`: the nodes behind `node` are unlinked and deleted, one by
one, at most `count` of them. -/
def removeRange (list : TokenList) (p : TokenListPtr) : Nat → Prog TokenList
  | 0 => return list
  | count + 1 => do
    let item := (← node p).next
    if item = nullptr then return list
    else do
      let next := (← node item).next
      setNext p next
      setPrev next p
      emit (.deleted list.head item)
      deleteItem item
      removeRange { list with length := list.length - 1 } p count

end TokenList

end TSubSpec.Prisma
