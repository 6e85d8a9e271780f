import Mathlib.Logic.Relation
import TSubSpec.Prisma.Simulation

/-!
# `TSubSpec.Prisma.Points`: the points a run comes to

A `Point` is a place in the control flow of the tokenizer together with all its data: a call of
`matchGrammar`, its loop over the patterns, or its loop over the nodes. `Point.Next` says where the
code goes from a point, into the calls it makes as well, and `Comes` collects the points of a run
of `tokenize`.

No run shows an observer anything else: `tokenize_watched` proves that every call and every loop
head in the log of `tokenize` is a point the run comes to. So a property of all these points is a
property of every run, also of the runs that fail.
-/

set_option autoImplicit false

namespace TSubSpec.Prisma

open TSubSpec.Lib
open TSubSpec.Lib.Traced
open Prog

/-- Run from the heap `h`, the program returns `a` and leaves the heap `h'`. -/
abbrev Prog.Gives {α : Type} (x : Prog α) (h : Heap) (a : α) (h' : Heap) : Prop :=
  (x.run h).result = .ok (a, h')

/-- A place in the control flow, with the list, the rematch options and the heap there. The places
are the heads of the loops and of the calls. -/
inductive Point where
  /-- `matchGrammar` is called. -/
  | call (c : Call) (tokenList : TokenList) (rematch : Option RematchOptions) (h : Heap)
  /-- The call has the patterns of `es` to try. -/
  | patterns (c : Call) (es : List Entry) (tokenList : TokenList)
      (rematch : Option RematchOptions) (h : Heap)
  /-- The call is at the head of its loop over the nodes. -/
  | nodes (c : Call) (e : Entry) (pattern : Pattern) (currentNode : TokenListPtr) (pos : Nat)
      (tokenList : TokenList) (rematch : Option RematchOptions) (h : Heap)

namespace Point

/-- `tokenize` calls `matchGrammar` on its new list. -/
def tokenize (text : Bytes) (grammar : Nat) (tokenList : TokenList) (h : Heap) : Point :=
  .call ⟨text, grammar, tokenList.head, 0, []⟩ tokenList none h

section

variable (search : RegexSearch) (tree : LanguageTree)

/-- The turn `e` is taken, with its pattern, and the loop over the nodes starts behind `start`. -/
structure Tries (c : Call) (e : Entry) (rematch : Option RematchOptions) (h : Heap)
    (pattern : Pattern) (start : TokenListNode) : Prop where
  not_cause : RematchOptions.isCause rematch e = false
  resolved : tree.resolvePattern e.pattern = some pattern
  inside : ∃ inside, tree.resolveInside pattern = some inside
  start : h.cell c.startNode = some start

/-- The body of the loop over the nodes is entered, past the guards. -/
structure Enters (c : Call) (currentNode : TokenListPtr) (pos : Nat) (tokenList : TokenList)
    (rematch : Option RematchOptions) : Prop where
  inList : currentNode ≠ tokenList.head
  inReach : RematchOptions.isReached rematch pos = false
  fits : tokenList.length ≤ c.text.length

/-- Where the code goes from a point. Each constructor is one branch of the source, with its guards
and what it has changed. -/
inductive Next : Point → Point → Prop
  /-- The call starts with the patterns of its grammar. -/
  | enter {c : Call} {list : TokenList} {r : Option RematchOptions} {h : Heap} {g : Grammar}
      (resolved : tree.resolveGrammar c.grammar = some g) :
      Next (.call c list r h) (.patterns c g.entries list r h)
  /-- The loop over the nodes starts. -/
  | start {c : Call} {e : Entry} {es : List Entry} {list : TokenList} {r : Option RematchOptions}
      {h : Heap} {p : Pattern} {n : TokenListNode} (tries : Tries tree c e r h p n) :
      Next (.patterns c (e :: es) list r h) (.nodes c e p n.next c.startPos list r h)
  /-- The loop over the nodes has ended, and the next pattern follows. -/
  | finish {c : Call} {e : Entry} {es : List Entry} {list list' : TokenList}
      {r r' : Option RematchOptions} {h h' : Heap} {p : Pattern} {n : TokenListNode} {fuel : Nat}
      (tries : Tries tree c e r h p n)
      (ended : (matchNodes search tree fuel c e p n.next c.startPos list r).Gives h
        (.finished, list', r') h') :
      Next (.patterns c (e :: es) list r h) (.patterns c es list' r' h')
  /-- The loop passes over nodes. -/
  | skip {c : Call} {e : Entry} {p : Pattern} {ptr ptr' : TokenListPtr} {pos pos' : Nat}
      {list : TokenList} {r : Option RematchOptions} {h h' : Heap} {n : TokenListNode} {fuel : Nat}
      (enters : Enters c ptr pos list r)
      (found : (inspect search fuel c.text list p ptr pos).Gives h (.skip ptr' pos') h')
      (current : h'.cell ptr' = some n) :
      Next (.nodes c e p ptr pos list r h)
        (.nodes c e p n.next (pos' + n.payload.length) list r h')
  /-- The match is tokenized with the inside grammar. -/
  | inside {c : Call} {e : Entry} {p : Pattern} {ptr ptr' removeFrom : TokenListPtr}
      {pos pos' i removeCount : Nat} {str view before after : Bytes} {list list' : TokenList}
      {children : TokenList} {r : Option RematchOptions} {h h₁ h₂ h₃ : Heap} {g fuel : Nat}
      (enters : Enters c ptr pos list r)
      (found : (inspect search fuel c.text list p ptr pos).Gives h
        (.found ptr' pos' str i view removeCount) h₁)
      (cut : (cutOut list ptr' str i view removeCount).Gives h₁
        (removeFrom, list', before, after) h₂)
      (inside : p.inside = some g) (new : (TokenList.new view).Gives h₂ children h₃) :
      Next (.nodes c e p ptr pos list r h) (tokenize view g children h₃)
  /-- The match is written, and `matchGrammar` is called again behind it. -/
  | rematch {c : Call} {e : Entry} {p : Pattern} {ptr ptr' written : TokenListPtr}
      {pos pos' i removeCount : Nat} {str view before : Bytes} {list list' entries : TokenList}
      {r : Option RematchOptions} {h h₁ h₂ : Heap} {n : TokenListNode} {fuel : Nat}
      (enters : Enters c ptr pos list r)
      (found : (inspect search fuel c.text list p ptr pos).Gives h
        (.found ptr' pos' str i view removeCount) h₁)
      (write : (writeMatch search tree fuel c e p list ptr' str i view removeCount).Gives h₁
        (written, before, list', entries) h₂)
      (removed : 1 < removeCount) (current : h₂.cell written = some n) :
      Next (.nodes c e p ptr pos list r h)
        (.call ⟨c.text, c.grammar, n.prev, pos' + before.length, c.at written⟩ list'
          (some ⟨e.token, pos' + str.length, e.x⟩) h₂)
  /-- The match is written, its rematch is over, and the loop goes on behind it. -/
  | goOn {c : Call} {e : Entry} {p : Pattern} {ptr ptr' written : TokenListPtr}
      {pos pos' i removeCount : Nat} {str view before : Bytes}
      {list list' list'' entries : TokenList} {r r' : Option RematchOptions}
      {h h₁ h₂ h₃ h₄ : Heap} {n : TokenListNode} {fuel : Nat}
      (enters : Enters c ptr pos list r)
      (found : (inspect search fuel c.text list p ptr pos).Gives h
        (.found ptr' pos' str i view removeCount) h₁)
      (write : (writeMatch search tree fuel c e p list ptr' str i view removeCount).Gives h₁
        (written, before, list', entries) h₂)
      (rematched : (rematchRemoved search tree fuel c e written (pos' + before.length)
        (pos' + str.length) list' (RematchOptions.extend r (pos' + str.length))
        removeCount).Gives h₂ (list'', r') h₃)
      (destroyed : entries.destroy.Gives h₃ () h₄) (current : h₄.cell written = some n) :
      Next (.nodes c e p ptr pos list r h)
        (.nodes c e p n.next (pos' + before.length + n.payload.length) list'' r' h₄)

end

end Point

/-- The points a run of `tokenize(text, grammar)` from the heap `h` comes to. What holds of the
first point and is kept by `Next` holds of all of them. -/
def Comes (search : RegexSearch) (tree : LanguageTree) (text : Bytes) (grammar : Nat) (h : Heap)
    (p : Point) : Prop :=
  ∃ list h', (TokenList.new text).Gives h list h' ∧
    Relation.ReflTransGen (Point.Next search tree) (.tokenize text grammar list h') p

/-- The run goes on from a point it comes to. -/
theorem Comes.next {search : RegexSearch} {tree : LanguageTree} {text : Bytes} {grammar : Nat}
    {h : Heap} {p q : Point} (hp : Comes search tree text grammar h p)
    (hq : Point.Next search tree p q) : Comes search tree text grammar h q := by
  obtain ⟨list, h', hnew, hpath⟩ := hp
  exact ⟨list, h', hnew, hpath.tail hq⟩

/-- The event shows a point of `R`. -/
def Event.Shows (R : Point → Prop) : Event → Prop
  | .entered s => ∃ c r, R (.call c s.tokenList r s.heap) ∧ s.text = c.text ∧
      s.grammar = c.grammar ∧ s.frames = c.outside
  | .loopHead s => ∃ c e p ptr pos r, R (.nodes c e p ptr pos s.tokenList r s.heap) ∧
      s.text = c.text ∧ s.grammar = c.grammar ∧ s.frames = c.at ptr
  | .aborted s => ∃ c e p ptr pos r, R (.nodes c e p ptr pos s.tokenList r s.heap) ∧
      s.text = c.text ∧ s.grammar = c.grammar ∧ s.frames = c.at ptr ∧
      s.text.length < s.tokenList.length
  | _ => True

/-! ### Programs an observer sees nothing of but deletions -/

/-- The event is a deletion. -/
def Event.IsDeletion (w : Event) : Prop := ∃ head item, w = .deleted head item

/-- The program only logs deletions. It shows no list to an observer. -/
def Quiet {α : Type} (x : Prog α) : Prop := ∀ h, Emits Event.IsDeletion (x.run h)

section

variable {α β : Type} {x : Prog α} {f : α → Prog β}

/-- A program that returns a value is quiet: it emits nothing. -/
theorem Quiet.pure (a : α) : Quiet (Pure.pure a : Prog α) := fun _ => .pure _ _

/-- A program that fails is quiet: it emits nothing. -/
theorem Quiet.raise (e : Fault) : Quiet (Prog.raise e : Prog α) := fun _ w hw => by cases hw

/-- Quiet programs one after the other are quiet. -/
theorem Quiet.bind (hx : Quiet x) (hf : ∀ a, Quiet (f a)) : Quiet (x >>= f) := fun h => by
  rw [StateT.run_bind]
  exact (hx h).bind fun a _ => hf a.1 a.2

/-- A program that branches is quiet if both branches are. -/
theorem Quiet.ite {c : Prop} [Decidable c] {y : Prog α} (hx : Quiet x) (hy : Quiet y) :
    Quiet (if c then x else y) := by
  split
  · exact hx
  · exact hy

/-- Failing on a missing value is quiet. -/
theorem Quiet.orRaise (e : Fault) (o : Option α) : Quiet (Prog.orRaise e o) := by
  cases o with
  | none => exact .raise e
  | some a => exact .pure a

end

/-- Reading the heap is quiet. -/
theorem quiet_get : Quiet (get : Prog Heap) := fun _ => .pure _ _

/-- Changing the heap is quiet. -/
theorem quiet_modify (f : Heap → Heap) : Quiet (modify f : Prog PUnit) := fun _ => .pure _ _

/-- Following a pointer is quiet, also where it fails. -/
theorem quiet_node (p : TokenListPtr) : Quiet (node p) :=
  .bind quiet_get fun _ => .orRaise _ _

/-- An allocation is quiet. -/
theorem quiet_alloc (n : TokenListNode) : Quiet (alloc n) := fun _ => .pure _ _

/-- Setting the pointer to the next node is quiet. -/
theorem quiet_setNext (p q : TokenListPtr) : Quiet (setNext p q) :=
  .bind (quiet_node p) fun _ => quiet_modify _

/-- Setting the pointer to the previous node is quiet. -/
theorem quiet_setPrev (p q : TokenListPtr) : Quiet (setPrev p q) :=
  .bind (quiet_node p) fun _ => quiet_modify _

/-- A deletion is quiet. -/
theorem quiet_free (p : TokenListPtr) : Quiet (free p) :=
  .bind (quiet_node p) fun _ => quiet_modify _

/-- The constructor is quiet: a list is shown only once a loop has it. -/
theorem quiet_new (value : Bytes) : Quiet (TokenList.new value) :=
  .bind (quiet_alloc _) fun _ => .bind (quiet_alloc _) fun _ => .bind (quiet_setNext _ _) fun _ =>
    .pure _

/-- The move constructor is quiet. -/
theorem quiet_move (old : TokenList) : Quiet old.move :=
  .bind (quiet_alloc _) fun _ => .bind (quiet_setNext _ _) fun _ => .pure _

/-- Inserting a text node is quiet. -/
theorem quiet_addAfterText (list : TokenList) (p : TokenListPtr) (value : Bytes) :
    Quiet (list.addAfterText p value) :=
  .bind (quiet_node _) fun _ => .bind (quiet_alloc _) fun _ => .bind (quiet_setNext _ _) fun _ =>
    .bind (quiet_setPrev _ _) fun _ => .pure _

/-- Inserting a syntax node is quiet. -/
theorem quiet_addAfterSyntax (list : TokenList) (p : TokenListPtr) (type : Bytes)
    (children : TokenList) (aliasName : Bytes) (length : Nat) :
    Quiet (list.addAfterSyntax p type children aliasName length) :=
  .bind (quiet_node _) fun _ => .bind (quiet_move _) fun _ => .bind (quiet_alloc _) fun _ =>
    .bind (quiet_setNext _ _) fun _ => .bind (quiet_setPrev _ _) fun _ => .pure _

mutual

/-- Deleting the nodes of a list is quiet. The two loops of the destructor call each other, so the
induction is on their fuel together. -/
theorem quiet_deleteFrom : ∀ (fuel : Nat) (head next : TokenListPtr),
    Quiet (deleteFrom fuel head next)
  | 0, head, next => by
    rw [deleteFrom]
    exact .raise _
  | fuel + 1, head, next => by
    rw [deleteFrom]
    exact .ite (quiet_free _) (.bind (quiet_node _) fun _ =>
      .bind (quiet_deletePayload fuel _) fun _ => .bind (quiet_free _) fun _ =>
        quiet_deleteFrom fuel _ _)

/-- Deleting the children of a node is quiet. -/
theorem quiet_deletePayload : ∀ (fuel : Nat) (payload : Payload),
    Quiet (deletePayload fuel payload)
  | 0, payload => by
    rw [deletePayload.eq_def]
    exact .raise _
  | fuel + 1, payload => by
    cases payload with
    | sentinel => exact .pure ()
    | text value => exact .pure ()
    | syn type children aliasName length =>
      rw [deletePayload]
      exact .bind (quiet_node _) fun _ => quiet_deleteFrom fuel _ _

end

/-- The destructor is quiet. -/
theorem quiet_destroy (list : TokenList) : Quiet list.destroy :=
  .bind (quiet_node _) fun _ => .bind quiet_get fun _ => quiet_deleteFrom _ _ _

/-- Deleting one node is quiet. -/
theorem quiet_deleteItem (item : TokenListPtr) : Quiet (TokenList.deleteItem item) :=
  .bind (quiet_node _) fun _ => .bind quiet_get fun _ => .bind (quiet_deletePayload _ _) fun _ =>
    quiet_free _

/-- Removing a range shows only nodes that are deleted, and no loop head. -/
theorem quiet_removeRange : ∀ (count : Nat) (list : TokenList) (p : TokenListPtr),
    Quiet (list.removeRange p count)
  | 0, list, p => by
    rw [TokenList.removeRange]
    exact .pure _
  | count + 1, list, p => by
    have hemit : ∀ head item, Quiet (emit (.deleted head item)) := fun head item _ w hw =>
      ⟨head, item, List.mem_singleton.mp hw⟩
    rw [TokenList.removeRange]
    exact .bind (quiet_node _) fun _ => .ite (.pure _) (.bind (quiet_node _) fun _ =>
      .bind (quiet_setNext _ _) fun _ => .bind (quiet_setPrev _ _) fun _ =>
        .bind (hemit _ _) fun _ => .bind (quiet_deleteItem _) fun _ => quiet_removeRange count _ _)

/-- The search for the node of a match is quiet. -/
theorem quiet_findNode (start : Nat) : ∀ (fuel : Nat) (currentNode : TokenListPtr) (p : Nat),
    Quiet (findNode start fuel currentNode p)
  | 0, currentNode, p => by
    rw [findNode]
    exact .raise _
  | fuel + 1, currentNode, p => by
    rw [findNode]
    exact .ite (.bind (quiet_node _) fun _ => .bind (quiet_node _) fun _ =>
      quiet_findNode start fuel _ _) (.pure _)

/-- The count of the nodes that a match covers is quiet. -/
theorem quiet_countAffected (head : TokenListPtr) (stop : Nat) :
    ∀ (fuel : Nat) (k : TokenListPtr) (removeCount p : Nat),
      Quiet (countAffected head stop fuel k removeCount p)
  | 0, k, removeCount, p => by
    rw [countAffected]
    exact .raise _
  | fuel + 1, k, removeCount, p => by
    rw [countAffected]
    exact .ite (.pure _) (.bind (quiet_node _) fun _ =>
      .ite (quiet_countAffected head stop fuel _ _ _) (.pure _))

variable {search : RegexSearch} {tree : LanguageTree}

/-- The search for the next match is quiet, on each of its branches. -/
theorem quiet_locate (fuel : Nat) (text : Bytes) (list : TokenList) (p : Pattern)
    (currentNode : TokenListPtr) (pos : Nat) (value : Bytes) :
    Quiet (locate search fuel text list p currentNode pos value) := by
  unfold locate
  split
  · split
    · exact .pure _
    · refine .ite (.pure _) (.bind (quiet_node _) fun _ => .bind (quiet_findNode _ _ _ _) fun _ =>
        .bind (quiet_node _) fun _ => .ite (.pure _) ?_)
      exact .bind (quiet_countAffected _ _ _ _ _ _) fun _ => .bind (.orRaise _ _) fun _ => .pure _
  · split
    · exact .pure _
    · exact .pure _

/-- The look at one node is quiet. -/
theorem quiet_inspect (fuel : Nat) (text : Bytes) (list : TokenList) (p : Pattern)
    (currentNode : TokenListPtr) (pos : Nat) :
    Quiet (inspect search fuel text list p currentNode pos) := by
  refine .bind (quiet_node _) fun n => ?_
  split
  · exact quiet_locate _ _ _ _ _ _ _
  · exact .pure _

/-- Adding the text in front of a match or behind it is quiet. -/
theorem quiet_addText (list : TokenList) (p : TokenListPtr) (s : Bytes) :
    Quiet (addText list p s) :=
  .ite (.pure _) (quiet_addAfterText _ _ _)

/-- Taking out the text around a match is quiet. -/
theorem quiet_cutOut (list : TokenList) (currentNode : TokenListPtr) (str : Bytes) (i : Nat)
    (view : Bytes) (removeCount : Nat) :
    Quiet (cutOut list currentNode str i view removeCount) :=
  .bind (.orRaise _ _) fun _ => .bind (.orRaise _ _) fun _ => .bind (quiet_node _) fun _ =>
    .bind (quiet_addText _ _ _) fun _ => .bind (quiet_removeRange _ _ _) fun _ => .pure _

/-- Putting in the text around a match and the token is quiet. -/
theorem quiet_pasteIn (list : TokenList) (removeFrom : TokenListPtr) (token : Bytes) (p : Pattern)
    (view : Bytes) (entries : TokenList) (after : Bytes) :
    Quiet (pasteIn list removeFrom token p view entries after) :=
  .bind (quiet_addAfterSyntax _ _ _ _ _ _) fun _ => .bind (quiet_addText _ _ _) fun _ => .pure _

/-! ### Every event shows a point the run comes to -/

/-- Following a pointer changes nothing, and gives the cell that is there. -/
theorem node_gives {p : TokenListPtr} {n : TokenListNode} {h h' : Heap}
    (hn : (node p).Gives h n h') : h' = h ∧ h.cell p = some n := by
  cases hc : h.cell p with
  | none =>
    simp only [Prog.Gives, node, StateT.run_bind, StateT.run_get, pure_bind, hc] at hn
    cases hn
  | some m =>
    rw [Prog.Gives, run_node hc] at hn
    cases hn
    exact ⟨rfl, rfl⟩

/-- What two programs one after the other can give. -/
theorem gives_bind {α β : Type} {x : Prog α} {f : α → Prog β} {h h' : Heap} {b : β} :
    (x >>= f).Gives h b h' ↔ ∃ a h₁, x.Gives h a h₁ ∧ (f a).Gives h₁ b h' := by
  rw [Prog.Gives, StateT.run_bind, Traced.bind_result_ok]
  constructor
  · rintro ⟨⟨a, h₁⟩, ha, hb⟩
    exact ⟨a, h₁, ha, hb⟩
  · rintro ⟨a, h₁, ha, hb⟩
    exact ⟨⟨a, h₁⟩, ha, hb⟩

/-- The rest of a program after a look at a node. -/
theorem node_bind_gives {α : Type} {p : TokenListPtr} {f : TokenListNode → Prog α} {h h' : Heap}
    {a : α} (hg : (node p >>= f).Gives h a h') :
    ∃ n, h.cell p = some n ∧ (f n).Gives h a h' := by
  obtain ⟨n, h₁, hn, ha⟩ := gives_bind.mp hg
  obtain ⟨rfl, hcell⟩ := node_gives hn
  exact ⟨n, hcell, ha⟩

section

variable {R : Point → Prop}

/-- An event that shows what is expected may be emitted. -/
theorem emits_emit {w : Event} {h : Heap} (hw : w.Shows R) :
    Emits (Event.Shows R) ((Prog.emit w).run h) := by
  intro w' hw'
  rw [List.mem_singleton.mp hw']
  exact hw

/-- A quiet program shows nothing that could be unexpected. -/
theorem Quiet.watched {α : Type} {x : Prog α} (hx : Quiet x) (h : Heap) :
    Emits (Event.Shows R) (x.run h) :=
  (hx h).mono fun w hw => by
    obtain ⟨head, item, rfl⟩ := hw
    trivial

section

variable (search tree R)

/-- With `fuel`, every event of a run from a point of `R` shows a point of `R`, if `R` is closed
under `Next`. -/
structure Watched (fuel : Nat) : Prop where
  tokenize : ∀ {text grammar h},
    (∀ list h', (TokenList.new text).Gives h list h' → R (.tokenize text grammar list h')) →
    Emits (Event.Shows R) ((tokenize search tree fuel text grammar).run h)
  tokenEntries : ∀ {c : Call} {view inside h},
    (∀ g children h', inside = some g → (TokenList.new view).Gives h children h' →
      R (.tokenize view g children h')) →
    Emits (Event.Shows R) ((tokenEntries search tree fuel c view inside).run h)
  matchGrammar : ∀ {c list r h}, R (.call c list r h) →
    Emits (Event.Shows R) ((matchGrammar search tree fuel c list r).run h)
  matchPatterns : ∀ {c es list r h}, R (.patterns c es list r h) →
    Emits (Event.Shows R) ((matchPatterns search tree fuel c es list r).run h)
  matchNodes : ∀ {c e p ptr pos list r h}, R (.nodes c e p ptr pos list r h) →
    Emits (Event.Shows R) ((matchNodes search tree fuel c e p ptr pos list r).run h)
  rematchRemoved : ∀ {c : Call} {e : Entry} {ptr pos reach list r removeCount h},
    (∀ n : TokenListNode, 1 < removeCount → h.cell ptr = some n →
      R (.call ⟨c.text, c.grammar, n.prev, pos, c.at ptr⟩ list (some ⟨e.token, reach, e.x⟩) h)) →
    Emits (Event.Shows R)
      ((rematchRemoved search tree fuel c e ptr pos reach list r removeCount).run h)

end

namespace Watched

variable {fuel : Nat}

/-- A call of `tokenize` shows its new list, and then only what the call of `matchGrammar` shows. -/
theorem tokenize_succ (ih : Watched search tree R fuel) {text : Bytes} {grammar : Nat} {h : Heap}
    (hnew : ∀ list h', (TokenList.new text).Gives h list h' → R (.tokenize text grammar list h')) :
    Emits (Event.Shows R) ((Prisma.tokenize search tree (fuel + 1) text grammar).run h) := by
  rw [Prisma.tokenize]
  simp only [StateT.run_bind]
  refine Emits.bind ((quiet_new text).watched h) fun a ha => ?_
  exact Emits.bind (ih.matchGrammar (hnew _ _ ha)) fun _ _ => .pure _ _

/-- The children of a token are a text, or are tokenized by a call of its own. -/
theorem tokenEntries_succ (ih : Watched search tree R fuel) {c : Call} {view : Bytes}
    {inside : Option Nat} {h : Heap}
    (hnew : ∀ g children h', inside = some g → (TokenList.new view).Gives h children h' →
      R (.tokenize view g children h')) :
    Emits (Event.Shows R) ((Prisma.tokenEntries search tree (fuel + 1) c view inside).run h) := by
  cases inside with
  | none =>
    rw [Prisma.tokenEntries]
    exact (quiet_new view).watched h
  | some g =>
    rw [Prisma.tokenEntries]
    simp only [StateT.run_bind]
    refine Emits.bind (emits_emit trivial) fun a ha => ?_
    cases ha
    exact ih.tokenize fun list h' hlist => hnew g list h' rfl hlist

/-- What an observer sees at a point of `R`. -/
theorem observe {c : Call} {list : TokenList} {frames : List Frame} {h : Heap}
    {w : Snapshot → Event}
    (hw : (w ⟨h, list, c.text, c.grammar, frames⟩).Shows R) {α : Type}
    {k : Unit → Prog α} (hk : Emits (Event.Shows R) ((k ()).run h)) :
    Emits (Event.Shows R) ((c.see list frames >>= fun s => Prog.emit (w s) >>= k).run h) := by
  simp only [StateT.run_bind, run_see, pure_bind]
  refine Emits.bind (emits_emit hw) fun a ha => ?_
  cases ha
  exact hk

/-- A call of `matchGrammar` shows its own loop heads and those of the loop over the patterns. -/
theorem matchGrammar_succ (ih : Watched search tree R fuel)
    (hR : ∀ p q, R p → Point.Next search tree p q → R q) {c : Call} {list : TokenList}
    {r : Option RematchOptions} {h : Heap} (hp : R (.call c list r h)) :
    Emits (Event.Shows R) ((Prisma.matchGrammar search tree (fuel + 1) c list r).run h) := by
  rw [Prisma.matchGrammar]
  refine observe (w := .entered) ⟨c, r, hp, rfl, rfl, rfl⟩ ?_
  cases hg : tree.resolveGrammar c.grammar with
  | none => exact (Quiet.raise _).watched h
  | some g =>
    simp only [StateT.run_bind, run_orRaise, pure_bind]
    refine Emits.bind (ih.matchPatterns (hR _ _ hp (.enter hg))) fun a _ => ?_
    exact observe (w := .left) trivial ((Quiet.pure _).watched _)

/-- One turn of the loop over the patterns: what is expected of a point is expected of the next. -/
theorem matchPatterns_succ (ih : Watched search tree R fuel)
    (hR : ∀ p q, R p → Point.Next search tree p q → R q) {c : Call} {es : List Entry}
    {list : TokenList} {r : Option RematchOptions} {h : Heap} (hp : R (.patterns c es list r h)) :
    Emits (Event.Shows R) ((Prisma.matchPatterns search tree (fuel + 1) c es list r).run h) := by
  cases es with
  | nil =>
    rw [Prisma.matchPatterns]
    exact .pure _ _
  | cons e es =>
    rw [Prisma.matchPatterns]
    split
    · exact .pure _ _
    · rename_i hcause
      cases hpat : tree.resolvePattern e.pattern with
      | none => exact (Quiet.raise _).watched h
      | some p =>
        simp only [StateT.run_bind, run_orRaise, pure_bind]
        cases hinside : tree.resolveInside p with
        | none => exact (Quiet.raise _).watched h
        | some inside =>
          simp only [run_orRaise, pure_bind]
          refine Emits.bind ((quiet_node _).watched h) fun a ha => ?_
          obtain ⟨hh, hstart⟩ := node_gives ha
          -- The turn is tried, and after its loop over the nodes the next one follows.
          have htries : Point.Tries tree c e r h p a.1 :=
            ⟨Bool.eq_false_iff.mpr hcause, hpat, ⟨_, hinside⟩, hstart⟩
          rw [hh]
          refine Emits.bind (ih.matchNodes (hR _ _ hp (.start htries))) fun b hb => ?_
          obtain ⟨⟨flow, list', r'⟩, h'⟩ := b
          cases flow with
          | returned => exact .pure _ _
          | finished => exact ih.matchPatterns (hR _ _ hp (.finish htries hb))

/-- What is matched again is a call on the same list, from the node in front of the token. -/
theorem rematchRemoved_succ (ih : Watched search tree R fuel) {c : Call} {e : Entry}
    {ptr : TokenListPtr} {pos reach : Nat} {list : TokenList} {r : Option RematchOptions}
    {removeCount : Nat} {h : Heap}
    (hcall : ∀ n : TokenListNode, 1 < removeCount → h.cell ptr = some n →
      R (.call ⟨c.text, c.grammar, n.prev, pos, c.at ptr⟩ list (some ⟨e.token, reach, e.x⟩) h)) :
    Emits (Event.Shows R)
      ((Prisma.rematchRemoved search tree (fuel + 1) c e ptr pos reach list r
        removeCount).run h) := by
  rw [Prisma.rematchRemoved]
  split
  · rename_i hcount
    simp only [StateT.run_bind]
    refine Emits.bind ((quiet_node _).watched h) fun a ha => ?_
    obtain ⟨hh, hcell⟩ := node_gives ha
    rw [hh]
    exact Emits.bind (ih.matchGrammar (hcall a.1 hcount hcell)) fun _ _ => .pure _ _
  · exact .pure _ _

/-- Writing a match logs what tokenizing it logs. -/
theorem writeMatch (ih : Watched search tree R fuel) {c : Call} {e : Entry} {p : Pattern}
    {list : TokenList} {ptr : TokenListPtr} {str view : Bytes} {i removeCount : Nat} {h : Heap}
    (hinside : ∀ {removeFrom list' before after g children h₁ h₂},
      (cutOut list ptr str i view removeCount).Gives h (removeFrom, list', before, after) h₁ →
      p.inside = some g → (TokenList.new view).Gives h₁ children h₂ →
      R (.tokenize view g children h₂)) :
    Emits (Event.Shows R)
      ((writeMatch search tree fuel c e p list ptr str i view removeCount).run h) := by
  rw [Prisma.writeMatch]
  simp only [StateT.run_bind]
  refine Emits.bind ((quiet_cutOut _ _ _ _ _ _).watched h) fun a ha => ?_
  refine Emits.bind (ih.tokenEntries fun g children h' hg hnew => hinside ha hg hnew) fun b _ => ?_
  exact Emits.bind ((quiet_pasteIn _ _ _ _ _ _ _).watched _) fun _ _ => .pure _ _

/-- One turn of the loop over the nodes: it stops, goes on to the next node, or puts a token in and
goes on behind it. -/
theorem matchNodes_succ (ih : Watched search tree R fuel)
    (hR : ∀ p q, R p → Point.Next search tree p q → R q) {c : Call} {e : Entry} {p : Pattern}
    {ptr : TokenListPtr} {pos : Nat} {list : TokenList} {r : Option RematchOptions} {h : Heap}
    (hp : R (.nodes c e p ptr pos list r h)) :
    Emits (Event.Shows R)
      ((Prisma.matchNodes search tree (fuel + 1) c e p ptr pos list r).run h) := by
  rw [matchNodes_eq]
  refine observe (w := .loopHead) ⟨c, e, p, ptr, pos, r, hp, rfl, rfl, rfl⟩ ?_
  split
  · exact .pure _ _
  · rename_i hin
    split
    · exact .pure _ _
    · rename_i hreached
      split
      · rename_i hfull
        exact observe (w := .aborted) ⟨c, e, p, ptr, pos, r, hp, rfl, rfl, rfl, hfull⟩ (.pure _ _)
      · rename_i hfits
        have henters : Point.Enters c ptr pos list r :=
          ⟨hin, Bool.eq_false_iff.mpr hreached, Nat.le_of_not_lt hfits⟩
        simp only [StateT.run_bind]
        refine Emits.bind ((quiet_inspect _ _ _ _ _ _).watched h) fun a ha => ?_
        obtain ⟨l, h₁⟩ := a
        cases l with
        | stop => exact .pure _ _
        | skip ptr' pos' =>
          simp only [StateT.run_bind]
          refine Emits.bind ((quiet_node _).watched h₁) fun b hb => ?_
          obtain ⟨hh, hcell⟩ := node_gives hb
          rw [hh]
          exact ih.matchNodes (hR _ _ hp (.skip henters ha hcell))
        | found ptr' pos' str i view removeCount =>
          -- Three steps lead on from here: to the inside grammar, to the rematch, and back.
          simp only [StateT.run_bind]
          refine Emits.bind (ih.writeMatch fun hcut hg hnew =>
            hR _ _ hp (.inside henters ha hcut hg hnew)) fun b hb => ?_
          obtain ⟨⟨written, before, list', entries⟩, h₂⟩ := b
          refine Emits.bind (ih.rematchRemoved fun n hcount hcell =>
            hR _ _ hp (.rematch henters ha hb hcount hcell)) fun d hd => ?_
          obtain ⟨⟨list'', r'⟩, h₃⟩ := d
          refine Emits.bind ((quiet_destroy _).watched h₃) fun f hf => ?_
          refine Emits.bind ((quiet_node _).watched f.2) fun m hm => ?_
          obtain ⟨hh, hcell⟩ := node_gives hm
          rw [hh]
          exact ih.matchNodes (hR _ _ hp (.goOn henters ha hb hd hf hcell))

end Watched

/-- Every event of a run from a point of `R` shows a point of `R`, when `R` is closed under the
steps of the code. The induction is on the fuel. -/
theorem watched (hR : ∀ p q, R p → Point.Next search tree p q → R q) :
    ∀ fuel, Watched search tree R fuel
  | 0 =>
    { tokenize := fun _ => by
        rw [Prisma.tokenize]
        exact (Quiet.raise _).watched _
      tokenEntries := fun _ => by
        rw [Prisma.tokenEntries.eq_def]
        exact (Quiet.raise _).watched _
      matchGrammar := fun _ => by
        rw [Prisma.matchGrammar]
        exact (Quiet.raise _).watched _
      matchPatterns := fun _ => by
        rw [Prisma.matchPatterns]
        exact (Quiet.raise _).watched _
      matchNodes := fun _ => by
        rw [Prisma.matchNodes]
        exact (Quiet.raise _).watched _
      rematchRemoved := fun _ => by
        rw [Prisma.rematchRemoved]
        exact (Quiet.raise _).watched _ }
  | fuel + 1 =>
    have ih := watched hR fuel
    { tokenize := ih.tokenize_succ
      tokenEntries := ih.tokenEntries_succ
      matchGrammar := ih.matchGrammar_succ hR
      matchPatterns := ih.matchPatterns_succ hR
      matchNodes := ih.matchNodes_succ hR
      rematchRemoved := ih.rematchRemoved_succ }

end

/-- Every event of a run of `tokenize` shows a point the run comes to. -/
theorem tokenize_watched (fuel : Nat) (text : Bytes) (grammar : Nat) (h : Heap) :
    Emits (Event.Shows (Comes search tree text grammar h))
      ((tokenize search tree fuel text grammar).run h) := by
  refine (watched (fun p q hp hq => hp.next hq) fuel).tokenize fun list h' hlist => ?_
  exact ⟨list, h', hlist, .refl⟩

end TSubSpec.Prisma
