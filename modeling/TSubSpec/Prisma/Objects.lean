import Mathlib.Logic.Function.Basic
import TSubSpec.Prisma.Operations

/-!
# `TSubSpec.Prisma.Objects`: lists as objects

A program has any number of `TokenList` objects, which are named by numbers. `step` lets it perform
one operation: it constructs a list from a text or by a move, inserts behind a node or behind the
sentinel, removes nodes, or destroys a list. The children that `addAfter` takes are another object.

Beside the heap a world has, for every object, the sequence that the list is meant to be. An
operation on it inserts one element or deletes some, and knows nothing of links. Its elements carry
the addresses of their nodes, because a program names the place of an operation by an address.
The sequences take no part in what the heap becomes.
-/

set_option autoImplicit false

namespace TSubSpec.Prisma

open TSubSpec.Lib

/-! ### Sequences -/

/-- An element: the address of its node, and what the node stands for. Two elements can stand for
the same. -/
structure Element where
  ptr : TokenListPtr
  tok : Tok

/-- A cell as an element. -/
def Cell.element (c : Cell) : Element := ⟨c.ptr, c.tok⟩

/-- How many elements there are up to a place, which is the sentinel or a node. -/
def position (seq : List Element) : Option TokenListPtr → Nat
  | none => 0
  | some p => seq.findIdx (·.ptr = p) + 1

/-- An element is inserted right after a place. -/
def insertAfter (place : Option TokenListPtr) (e : Element) (seq : List Element) : List Element :=
  seq.take (position seq place) ++ e :: seq.drop (position seq place)

/-- The next `count` elements after a place are deleted. -/
def deleteAfter (place : Option TokenListPtr) (count : Nat) (seq : List Element) : List Element :=
  seq.take (position seq place) ++ seq.drop (position seq place + count)

/-- A place of the sequence, with `count` elements after it. -/
def hasAfter (seq : List Element) (place : Option TokenListPtr) (count : Nat) : Bool :=
  place.all (· ∈ seq.map Element.ptr) && position seq place + count ≤ seq.length

/-! ### Worlds -/

/-- The heap, the objects, and the sequences that they are meant to be. The sequences are what the
operations are specified on. -/
structure World where
  heap : Heap
  objects : Nat → Option TokenList
  sequences : Nat → Option (List Element)

namespace World

/-- No object was constructed yet. -/
def start : World := ⟨.empty, fun _ => none, fun _ => none⟩

/-- An object is constructed, changed or destroyed. -/
def set (w : World) (x : Nat) (list : Option TokenList) (seq : Option (List Element)) : World where
  heap := w.heap
  objects := Function.update w.objects x list
  sequences := Function.update w.sequences x seq

/-- What a program returns, and the world with the heap it leaves. A fault is `none`. -/
def exec {α : Type} (w : World) (prog : Prog α) : Option (α × World) :=
  match (prog.run w.heap).result with
  | .ok (a, heap) => some (a, { w with heap := heap })
  | .error _ => none

end World

/-- The address of a place. -/
def TokenList.address (list : TokenList) (place : Option TokenListPtr) : TokenListPtr :=
  place.getD list.head

/-- An operation on the objects. A place is given as the address of a node, or `none` for the
sentinel. -/
inductive Operation where
  /-- `TokenList x(value)`. -/
  | construct (x : Nat) (value : Bytes)
  /-- `x.addAfter(node, value)`. -/
  | addAfterText (x : Nat) (place : Option TokenListPtr) (value : Bytes)
  /-- `x.addAfter(node, type, std::move(children), alias, textLength)`. -/
  | addAfterSyntax (x : Nat) (place : Option TokenListPtr) (type : Bytes) (children : Nat)
      (aliasName : Bytes) (textLength : Nat)
  /-- `x.removeRange(node, count)`. -/
  | removeRange (x : Nat) (place : Option TokenListPtr) (count : Nat)
  /-- `TokenList x(std::move(old))`. -/
  | moveConstruct (x old : Nat)
  /-- `x.~TokenList()`. -/
  | destroy (x : Nat)

/-- What the type of an operation and its callers promise: the objects exist, or do not exist yet,
the node is a node of the list or its sentinel, there are enough nodes behind it, and the children
are another list. -/
def allowed (w : World) : Operation → Bool
  | .construct x _ => (w.objects x).isNone
  | .addAfterText x place _ => (w.sequences x).any (hasAfter · place 0)
  | .addAfterSyntax x place _ children _ _ =>
    x ≠ children && (w.objects children).isSome && (w.sequences x).any (hasAfter · place 0)
  | .removeRange x place count => (w.sequences x).any (hasAfter · place count)
  | .moveConstruct x old => (w.objects x).isNone && (w.objects old).isSome
  | .destroy x => (w.objects x).isSome

/-- One operation, on the objects and on the sequences at once. A fault of the code is `none`. -/
def step (w : World) : Operation → Option World
  -- The constructor returns no node. It is the one behind the sentinel.
  | .construct x value =>
    (w.exec (TokenList.new value)).map fun (list, w) =>
      w.set x (some list) (some [⟨(w.heap.next list.head).getD nullptr, .text value⟩])
  | .addAfterText x place value =>
    (w.objects x).bind fun list =>
      (w.exec (list.addAfterText (list.address place) value)).map fun ((p, list), w) =>
        w.set x (some list) ((w.sequences x).map (insertAfter place ⟨p, .text value⟩))
  | .addAfterSyntax x place type children aliasName textLength =>
    (w.objects x).bind fun list => (w.objects children).bind fun childList =>
      (w.exec (list.addAfterSyntax (list.address place) type childList aliasName textLength)).map
        fun ((p, list, movedFrom), w) =>
          -- The children are moved into the node, and an empty list is left behind.
          let toks := ((w.sequences children).getD []).map Element.tok
          (w.set x (some list) ((w.sequences x).map
            (insertAfter place ⟨p, .syn type toks aliasName textLength⟩))).set
              children (some movedFrom) (some [])
  -- The count of the list is its own field, and goes along with the object.
  | .removeRange x place count =>
    (w.objects x).bind fun list =>
      (w.exec (list.removeRange (list.address place) count)).map fun (list, w) =>
        w.set x (some list) ((w.sequences x).map (deleteAfter place count))
  | .moveConstruct x old =>
    (w.objects old).bind fun list =>
      (w.exec (TokenList.move list)).map fun ((list, movedFrom), w) =>
        (w.set x (some list) (w.sequences old)).set old (some movedFrom) (some [])
  | .destroy x =>
    (w.objects x).bind fun list =>
      (w.exec list.destroy).map fun ((), w) => w.set x none none

/-! ### What the list is read to be -/

/-- The nodes that an iteration from `begin()` to `end()` visits. No more nodes are visited than
addresses were given out. -/
def TokenList.nodes (list : TokenList) (h : Heap) : Option (List TokenListPtr) :=
  (h.next list.head).bind (walk h.next list.head h.fresh)

/-- The object is the sequence: an iteration visits the nodes of its elements in order, `length` is
their number, each node is the `next` of its `prev`, and holds what the element stands for. -/
structure Represents (h : Heap) (list : TokenList) (seq : List Element) : Prop where
  nodes_eq : list.nodes h = some (seq.map Element.ptr)
  length_eq : list.length = seq.length
  prev_next : ∀ e ∈ seq, ∃ p, h.prev e.ptr = some p ∧ h.next p = some e.ptr
  holds : ∀ e ∈ seq, ∃ payload own, h.payload e.ptr = some payload ∧ Owns h payload e.tok own

/-- The address is that of the sentinel, of a node, or it belongs to the children of a node. -/
inductive Belongs (h : Heap) : TokenListPtr → TokenListPtr → Prop
  | own {head q : TokenListPtr} (linked : Linked h.next head q) : Belongs h head q
  | child {head p q : TokenListPtr} {type aliasName : Bytes} {children : TokenList} {length : Nat}
      (linked : Linked h.next head p)
      (payload : h.payload p = some (.syn type children aliasName length))
      (belongs : Belongs h children.head q) : Belongs h head q

/-- The destructor returns, and the addresses that it frees are those that belong to the list, each
of which was live. To free one again would be a fault. -/
def DestroyedOnce (h : Heap) (list : TokenList) : Prop :=
  ∃ (h' : Heap) (F : List TokenListPtr), list.destroy.run h = pure ((), h') ∧ Freed h h' F ∧
    F.Nodup ∧ (∀ q, q ∈ F ↔ Belongs h list.head q) ∧ ∀ q ∈ F, (h.cell q).isSome

end TSubSpec.Prisma
