import TSubSpec.Lib.Ring
import TSubSpec.Prisma.Sequence

/-!
# `TSubSpec.Prisma.Ownership`: the list a heap holds

`Rep h list cs` says that the object `list` is, in the heap `h`, a well-formed list of the cells
`cs`. A `Cell` is a node together with the token it stands for and the addresses it owns, which
are the nodes of its children, recursively. No address is owned twice.

`Rep.frame` is the frame rule: a list only depends on the addresses it owns. `Moved` says which
addresses a program may have written to, and its rules carry lists the program does not know about
across its run.
-/

set_option autoImplicit false

namespace TSubSpec.Prisma

open TSubSpec.Lib

/-- `p->next`, when there is a node at `p`. -/
def Heap.next (h : Heap) (p : TokenListPtr) : Option TokenListPtr := (h.cell p).map (·.next)

/-- `p->prev`, when there is a node at `p`. -/
def Heap.prev (h : Heap) (p : TokenListPtr) : Option TokenListPtr := (h.cell p).map (·.prev)

/-- What the node at `p` holds beside its links. -/
def Heap.payload (h : Heap) (p : TokenListPtr) : Option Payload := (h.cell p).map (·.payload)

/-- A cell that is there has an address below the fresh one. -/
theorem Heap.lt_fresh {h : Heap} {p : TokenListPtr} {n : TokenListNode} (hp : h.cell p = some n) :
    p < h.fresh := by
  by_contra hle
  rw [h.cell_of_le p (Nat.le_of_not_lt hle)] at hp
  cases hp

/-- No cell is at the null pointer, so a list never contains it. -/
theorem Heap.ne_nullptr {h : Heap} {p : TokenListPtr} {n : TokenListNode} (hp : h.cell p = some n) :
    p ≠ nullptr := by
  rintro rfl
  rw [h.cell_null] at hp
  cases hp

/-- A node with its address, the token it stands for, and the addresses it owns, which are those of
its children. -/
structure Cell where
  ptr : TokenListPtr
  payload : Payload
  tok : Tok
  own : List TokenListPtr

/-- The addresses of a run of cells. -/
abbrev ptrs (cs : List Cell) : List TokenListPtr := cs.map (·.ptr)

/-- The addresses of a run of cells and all they own. No address is there twice in a list. -/
def area (cs : List Cell) : List TokenListPtr := cs.flatMap fun c => c.ptr :: c.own

/-- A list of no nodes has no addresses. -/
@[simp] theorem area_nil : area [] = [] := rfl

/-- The addresses of a list: a node, its children, and those of the other nodes. -/
@[simp] theorem area_cons (c : Cell) (cs : List Cell) :
    area (c :: cs) = c.ptr :: (c.own ++ area cs) := rfl

/-- The addresses of two stretches of nodes are those of the first, then those of the second. -/
@[simp] theorem area_append (xs ys : List Cell) : area (xs ++ ys) = area xs ++ area ys := by
  simp [area]

/-- An address of a node or of its children is one of the list. -/
theorem mem_area {c : Cell} {cs : List Cell} (hc : c ∈ cs) {q : TokenListPtr}
    (hq : q ∈ c.ptr :: c.own) : q ∈ area cs :=
  List.mem_flatMap.mpr ⟨c, hc, hq⟩

/-- The address of a node is one of the list. -/
theorem ptr_mem_area {c : Cell} {cs : List Cell} (hc : c ∈ cs) : c.ptr ∈ area cs :=
  mem_area hc List.mem_cons_self

/-- The addresses of a node's children are among those of the list. -/
theorem own_subset_area {c : Cell} {cs : List Cell} (hc : c ∈ cs) : c.own ⊆ area cs :=
  fun _ hq => mem_area hc (List.mem_cons_of_mem _ hq)

/-- The addresses of the nodes themselves are among those of the list. -/
theorem ptrs_subset_area (cs : List Cell) : ptrs cs ⊆ area cs := by
  intro q hq
  obtain ⟨c, hc, rfl⟩ := List.mem_map.mp hq
  exact ptr_mem_area hc

/-- The nodes of a list are linked up behind the sentinel `head`, hold the payloads of the cells
`cs`, and own disjoint addresses. -/
structure Spine (h : Heap) (head : TokenListPtr) (cs : List Cell) : Prop where
  sentinel : h.payload head = some .sentinel
  ring : Ring h.next h.prev head (ptrs cs)
  payloads : ∀ c ∈ cs, h.payload c.ptr = some c.payload
  nodup : (head :: area cs).Nodup

/-- The payload of a node stands for a token, and owns the nodes of its children, whose payloads own
theirs. -/
inductive Owns (h : Heap) : Payload → Tok → List TokenListPtr → Prop
  | text (value : Bytes) : Owns h (.text value) (.text value) []
  | syn {type aliasName : Bytes} {length : Nat} {children : TokenList} {cs : List Cell}
      (spine : Spine h children.head cs) (length_eq : children.length = cs.length)
      (owns : ∀ c ∈ cs, Owns h c.payload c.tok c.own) :
      Owns h (.syn type children aliasName length)
        (.syn type (cs.map (·.tok)) aliasName length) (children.head :: area cs)

/-- The object `list` is the list of the cells `cs`: a ring around its sentinel, whose addresses are
all different, and whose payloads own what is theirs. -/
structure Rep (h : Heap) (list : TokenList) (cs : List Cell) : Prop where
  spine : Spine h list.head cs
  length_eq : list.length = cs.length
  owns : ∀ c ∈ cs, Owns h c.payload c.tok c.own

variable {h h' h'' : Heap} {list : TokenList} {cs xs ys : List Cell} {c : Cell}

/-- A payload that is there belongs to a cell that is there. -/
theorem Heap.cell_of_payload {p : TokenListPtr} {pl : Payload} (hp : h.payload p = some pl) :
    ∃ n, h.cell p = some n ∧ n.payload = pl :=
  Option.map_eq_some_iff.mp hp

/-- The spine of a list only depends on the sentinel and the nodes. -/
theorem Spine.frame {head : TokenListPtr} (hs : Spine h head cs)
    (hcell : ∀ q ∈ head :: ptrs cs, h'.cell q = h.cell q) : Spine h' head cs where
  sentinel := by
    rw [Heap.payload, hcell _ List.mem_cons_self]
    exact hs.sentinel
  ring := by
    refine hs.ring.congr (fun q hq => ?_) fun q hq => ?_
    · rw [Heap.next, hcell q hq]
      rfl
    · rw [Heap.prev, hcell q (List.mem_cons_of_mem _ hq)]
      rfl
  payloads c hc := by
    rw [Heap.payload, hcell _ (List.mem_cons_of_mem _ (List.mem_map_of_mem hc))]
    exact hs.payloads c hc
  nodup := hs.nodup

/-- Cells at the same addresses are the same, when those at one address are. -/
theorem cells_ext : ∀ {xs ys : List Cell}, ptrs xs = ptrs ys →
    (∀ c ∈ xs, ∀ c' ∈ ys, c.ptr = c'.ptr → c = c') → xs = ys
  | [], [], _, _ => rfl
  | c :: xs, c' :: ys, hptrs, hcell => by
    obtain ⟨hptr, hptrs⟩ := List.cons.inj hptrs
    rw [hcell c List.mem_cons_self c' List.mem_cons_self hptr, cells_ext hptrs fun c hc c' hc' =>
      hcell c (List.mem_cons_of_mem _ hc) c' (List.mem_cons_of_mem _ hc')]

/-- A spine has one sequence of cells, when each payload stands for one token. -/
theorem Spine.unique {head : TokenListPtr} (hx : Spine h head xs) (hy : Spine h head ys)
    (htok : ∀ c ∈ xs, ∀ tok own, Owns h c.payload tok own → c.tok = tok ∧ c.own = own)
    (howns : ∀ c ∈ ys, Owns h c.payload c.tok c.own) : xs = ys := by
  refine cells_ext (hx.ring.unique hy.ring) fun c hc c' hc' hptr => ?_
  obtain ⟨ptr, payload, tok, own⟩ := c
  obtain ⟨ptr', payload', tok', own'⟩ := c'
  obtain rfl : ptr = ptr' := hptr
  obtain rfl : payload = payload' :=
    Option.some.inj ((hx.payloads _ hc).symm.trans (hy.payloads _ hc'))
  obtain ⟨rfl, rfl⟩ : tok = tok' ∧ own = own' := htok _ hc _ _ (howns _ hc')
  rfl

namespace Owns

variable {pl : Payload} {tok : Tok} {own : List TokenListPtr}

/-- The length that a payload has is the one of its token. -/
theorem length_tok (ho : Owns h pl tok own) : pl.length = tok.length := by
  cases ho <;> rfl

/-- A payload is a syntax node exactly if its token is. -/
theorem isSyntax_tok (ho : Owns h pl tok own) : pl.isSyntax = tok.isSyntax := by
  cases ho <;> rfl

/-- A payload is a text exactly if its token is the same text. -/
theorem text_iff (ho : Owns h pl tok own) (value : Bytes) :
    pl = .text value ↔ tok = .text value := by
  cases ho with
  | text v => constructor <;> (rintro ⟨⟩; rfl)
  | syn => constructor <;> (rintro ⟨⟩)

/-- Every address a payload owns is live. -/
theorem live (ho : Owns h pl tok own) : ∀ q ∈ own, ∃ n, h.cell q = some n := by
  induction ho with
  | text => simp
  | @syn type aliasName length children cs spine length_eq owns ih =>
    intro q hq
    rcases List.mem_cons.mp hq with rfl | hq
    · exact (Heap.cell_of_payload spine.sentinel).imp fun _ => And.left
    · obtain ⟨c, hc, hq⟩ := List.mem_flatMap.mp hq
      rcases List.mem_cons.mp hq with rfl | hq
      · exact (Heap.cell_of_payload (spine.payloads c hc)).imp fun _ => And.left
      · exact ih c hc q hq

/-- A payload stands for one token. -/
theorem unique (ho : Owns h pl tok own) : ∀ {tok' : Tok} {own' : List TokenListPtr},
    Owns h pl tok' own' → tok = tok' ∧ own = own' := by
  induction ho with
  | text value =>
    rintro _ _ ⟨⟩
    exact ⟨rfl, rfl⟩
  | @syn type aliasName length children cs spine length_eq owns ih =>
    intro tok' own' ho'
    cases ho' with
    | syn spine' length_eq' owns' =>
      rw [spine.unique spine' (fun c hc _ _ => ih c hc) owns']
      exact ⟨rfl, rfl⟩

/-- A payload only depends on the addresses it owns. -/
theorem frame (ho : Owns h pl tok own) (hcell : ∀ q ∈ own, h'.cell q = h.cell q) :
    Owns h' pl tok own := by
  induction ho with
  | text value => exact .text value
  | @syn type aliasName length children cs spine length_eq owns ih =>
    refine .syn (spine.frame fun q hq => hcell q ?_) length_eq fun c hc => ih c hc fun q hq =>
      hcell q (List.mem_cons_of_mem _ (own_subset_area hc hq))
    exact List.cons_subset_cons _ (ptrs_subset_area cs) hq

end Owns

namespace Rep

/-- The list as the children of a `Syntax`. -/
theorem syn (hr : Rep h list cs) (type aliasName : Bytes) (length : Nat) :
    Owns h (.syn type list aliasName length) (.syn type (cs.map (·.tok)) aliasName length)
      (list.head :: area cs) :=
  .syn hr.spine hr.length_eq hr.owns

/-- Every address of a list is live. -/
theorem live (hr : Rep h list cs) : ∀ q ∈ list.head :: area cs, ∃ n, h.cell q = some n :=
  (hr.syn [] [] 0).live

/-- Every address of a list is below the fresh one, so a new node is at none of them. -/
theorem lt_fresh (hr : Rep h list cs) {q : TokenListPtr} (hq : q ∈ list.head :: area cs) :
    q < h.fresh := by
  obtain ⟨n, hn⟩ := hr.live q hq
  exact Heap.lt_fresh hn

/-- A heap holds at most one list in an object. -/
theorem unique (hx : Rep h list xs) (hy : Rep h list ys) : xs = ys :=
  hx.spine.unique hy.spine (fun c hc _ _ => (hx.owns c hc).unique) hy.owns

/-- A list only depends on the addresses it owns. -/
theorem frame (hr : Rep h list cs) (hcell : ∀ q ∈ list.head :: area cs, h'.cell q = h.cell q) :
    Rep h' list cs where
  spine := hr.spine.frame fun q hq => hcell q (List.cons_subset_cons _ (ptrs_subset_area cs) hq)
  length_eq := hr.length_eq
  owns c hc := (hr.owns c hc).frame fun q hq =>
    hcell q (List.mem_cons_of_mem _ (own_subset_area hc hq))

/-- The node at a cell. -/
theorem cell (hr : Rep h list cs) (hc : c ∈ cs) :
    ∃ n, h.cell c.ptr = some n ∧ n.payload = c.payload :=
  Heap.cell_of_payload (hr.spine.payloads c hc)

end Rep

/-- The children a `Syntax` owns. -/
theorem Owns.children {type aliasName : Bytes} {length : Nat} {children : TokenList} {tok : Tok}
    {own : List TokenListPtr} (ho : Owns h (.syn type children aliasName length) tok own) :
    ∃ cs, Rep h children cs ∧ own = children.head :: area cs := by
  cases ho with
  | syn spine length_eq owns => exact ⟨_, ⟨spine, length_eq, owns⟩, rfl⟩

/-! ### What a program may have written to -/

/-- From `h` to `h'` a program that owned the addresses `F` has come to own `F'`. It wrote to
no other address that was given out before, and what it owns beyond `F` was given out since. -/
structure Moved (h h' : Heap) (F F' : List TokenListPtr) : Prop where
  fresh_le : h.fresh ≤ h'.fresh
  frame : ∀ q < h.fresh, q ∉ F → h'.cell q = h.cell q
  within : ∀ q ∈ F', q ∈ F ∨ h.fresh ≤ q

namespace Moved

variable {F F' F'' G : List TokenListPtr}

/-- Nothing has moved if no address was added. -/
theorem refl (hsub : F' ⊆ F) : Moved h h F F' where
  fresh_le := Nat.le_refl _
  frame _ _ _ := rfl
  within _ hq := Or.inl (hsub hq)

/-- The program may own more, and give up some of it. -/
theorem mono (hm : Moved h h' F F') (hF : F ⊆ G) (hG : ∀ q ∈ F'', q ∈ F' ∨ q ∈ G) :
    Moved h h' G F'' where
  fresh_le := hm.fresh_le
  frame q hq hq' := hm.frame q hq fun hF' => hq' (hF hF')
  within q hq := (hG q hq).elim (fun hq => (hm.within q hq).imp_left fun hq => hF hq) Or.inl

/-- Two operations one after the other move what either moves. -/
theorem trans (h₁ : Moved h h' F F') (h₂ : Moved h' h'' F' F'') : Moved h h'' F F'' where
  fresh_le := Nat.le_trans h₁.fresh_le h₂.fresh_le
  frame q hq hF := by
    rw [h₂.frame q (Nat.lt_of_lt_of_le hq h₁.fresh_le), h₁.frame q hq hF]
    intro hF'
    rcases h₁.within q hF' with h | h
    · exact hF h
    · exact Nat.not_lt_of_le h hq
  within q hq := by
    rcases h₂.within q hq with h | h
    · exact h₁.within q h
    · exact Or.inr (Nat.le_trans h₁.fresh_le h)

/-- A list the program does not own is carried across the run. -/
theorem rep (hm : Moved h h' F F') (hr : Rep h list cs)
    (hdisj : ∀ q ∈ list.head :: area cs, q ∉ F) : Rep h' list cs :=
  hr.frame fun q hq => hm.frame q (hr.lt_fresh hq) (hdisj q hq)

/-- What the program owns afterwards is still disjoint from a list it did not own. -/
theorem disjoint (hm : Moved h h' F F') (hr : Rep h list cs)
    (hdisj : ∀ q ∈ list.head :: area cs, q ∉ F) : ∀ q ∈ list.head :: area cs, q ∉ F' := by
  intro q hq hF'
  rcases hm.within q hF' with h | h
  · exact hdisj q hq h
  · exact Nat.not_lt_of_le h (hr.lt_fresh hq)

end Moved

end TSubSpec.Prisma
