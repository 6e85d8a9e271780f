import Mathlib.Data.List.Perm.Subperm
import TSubSpec.Prisma.Ownership

/-!
# `TSubSpec.Prisma.Operations`: what the operations of `TokenList` do

One theorem for each operation of `TokenList.cpp`, from a heap that holds the list to the heap it
leaves: `addAfterText_run`, `addAfterSyntax_run`, `removeRange_run`, `destroy_run` and the two
constructors. Every operation on a well-formed list returns, so each theorem gives the outcome of
the run as an equation. The callers use these theorems and never unfold an operation.
-/

set_option autoImplicit false

namespace TSubSpec.Prisma

open TSubSpec.Lib
open Prog

/-! ### The heap after a write -/

namespace Heap

variable {h : Heap} {p q a b r : TokenListPtr} {n : TokenListNode}

/-- `p->next = a; q->prev = b`. Every operation on the list ends with such a pair. -/
def link (h : Heap) (p q a b : TokenListPtr) : Heap :=
  (h.modify p fun n => { n with next := a }).modify q fun n => { n with prev := b }

/-- A link sets the next pointer of its first node. -/
theorem link_next_self (hp : h.cell p = some n) : (h.link p q a b).next p = some a := by
  simp only [Heap.next, link, modify, hp, if_true, Option.map_some]
  split <;> rfl

/-- A link leaves the next pointers of the other nodes. -/
theorem link_next_of_ne (hr : r ≠ p) : (h.link p q a b).next r = h.next r := by
  simp only [Heap.next, link, modify, if_neg hr]
  split
  · cases h.cell r <;> rfl
  · rfl

/-- A link sets the previous pointer of its second node. -/
theorem link_prev_self (hq : h.cell q = some n) : (h.link p q a b).prev q = some b := by
  simp only [Heap.prev, link, modify, hq, if_true]
  split <;> rfl

/-- A link leaves the previous pointers of the other nodes. -/
theorem link_prev_of_ne (hr : r ≠ q) : (h.link p q a b).prev r = h.prev r := by
  simp only [Heap.prev, link, modify, if_neg hr]
  split
  · cases h.cell r <;> rfl
  · rfl

/-- A link changes no payload. -/
theorem link_payload : (h.link p q a b).payload r = h.payload r := by
  simp only [Heap.payload, link, modify]
  split <;> split <;> cases h.cell r <;> rfl

/-- A link changes no cell but those of its two nodes. -/
theorem link_cell_of_ne (hp : r ≠ p) (hq : r ≠ q) : (h.link p q a b).cell r = h.cell r := by
  simp only [link, modify, if_neg hp, if_neg hq]

/-- An allocation puts the node at the fresh address. -/
theorem alloc_cell_fresh : (h.alloc n).cell h.fresh = some n := if_pos rfl

/-- An allocation leaves the cells below the fresh address. -/
theorem alloc_cell_of_lt (hr : r < h.fresh) : (h.alloc n).cell r = h.cell r :=
  if_neg (Nat.ne_of_lt hr)

/-- A deletion leaves the other cells. -/
theorem erase_cell_of_ne (hr : r ≠ p) : (h.erase p).cell r = h.cell r := if_neg hr

end Heap

/-! ### Runs of the basic programs -/

namespace Prog

variable {h : Heap} {p q : TokenListPtr} {n : TokenListNode}

/-- A value that is there is returned. -/
theorem run_orRaise {α : Type} {e : Fault} {a : α} : (orRaise e (some a)).run h = pure (a, h) := rfl

/-- Following a pointer that points to a cell gives the cell. -/
theorem run_node (hp : h.cell p = some n) : (node p).run h = pure (n, h) := by
  simp only [node, StateT.run_bind, StateT.run_get, pure_bind, hp]
  rfl

/-- An allocation returns the fresh address. -/
theorem run_alloc : (alloc n).run h = pure (h.fresh, h.alloc n) := rfl

/-- Setting the next pointer of a cell that is there succeeds. -/
theorem run_setNext (hp : h.cell p = some n) :
    (setNext p q).run h = pure ((), h.modify p fun n => { n with next := q }) := by
  simp only [setNext, StateT.run_bind, run_node hp, pure_bind]
  rfl

/-- Setting the previous pointer of a cell that is there succeeds. -/
theorem run_setPrev (hp : h.cell p = some n) :
    (setPrev p q).run h = pure ((), h.modify p fun n => { n with prev := q }) := by
  simp only [setPrev, StateT.run_bind, run_node hp, pure_bind]
  rfl

/-- Deleting a cell that is there succeeds. A second time there would be no cell. -/
theorem run_free (hp : h.cell p = some n) : (free p).run h = pure ((), h.erase p) := by
  simp only [free, StateT.run_bind, run_node hp, pure_bind]
  rfl

/-- An event is emitted and changes nothing. -/
theorem run_emit {w : Event} : (emit w).run h = ⟨.ok ((), h), [w]⟩ := rfl

/-- Two writes that link `p` and `q`. -/
theorem run_link {a b : TokenListPtr} {m : TokenListNode} {α : Type}
    {k : Unit × Heap → Traced Fault Event α} (hp : h.cell p = some n) (hq : h.cell q = some m) :
    ((setNext p a).run h >>= fun r => (setPrev q b).run r.2 >>= k) = k ((), h.link p q a b) := by
  have hq' : ∃ m', (h.modify p fun n => { n with next := a }).cell q = some m' := by
    simp only [Heap.modify]
    split
    · exact ⟨_, by rw [hq]; rfl⟩
    · exact ⟨m, hq⟩
  obtain ⟨m', hq'⟩ := hq'
  simp only [run_setNext hp, run_setPrev hq', pure_bind]
  rfl

end Prog

/-! ### Positions in a list -/

namespace Rep

variable {h h' : Heap} {list : TokenList} {xs ys : List Cell}

/-- The address in front of the cells `ys`. -/
abbrev front (list : TokenList) (xs : List Cell) : TokenListPtr := lastOf list.head (ptrs xs)

/-- The address of the first of the cells `ys`, or of the sentinel. -/
abbrev back (list : TokenList) (ys : List Cell) : TokenListPtr := firstOf list.head (ptrs ys)

/-- Behind a place comes the first cell that is left. -/
theorem back_cons (list : TokenList) (c : Cell) (ys : List Cell) : back list (c :: ys) = c.ptr :=
  rfl

/-- The node in front of a place is the head or a node of the list. -/
theorem front_mem (list : TokenList) (xs ys : List Cell) :
    front list xs ∈ list.head :: ptrs (xs ++ ys) :=
  List.cons_subset_cons _ (by simp [ptrs]) (lastOf_mem list.head (ptrs xs))

/-- The node behind a place is the head or a node of the list. -/
theorem back_mem (list : TokenList) (xs ys : List Cell) :
    back list ys ∈ list.head :: ptrs (xs ++ ys) := by
  have := firstOf_mem list.head (ptrs ys)
  simp only [ptrs, List.map_append, List.mem_cons, List.mem_append, List.mem_nil_iff,
    or_false] at this ⊢
  rcases this with h | h
  · exact Or.inr (Or.inr h)
  · exact Or.inl h

/-- The ring of a list, written for a place inside of it. -/
theorem cut (hr : Rep h list (xs ++ ys)) : Ring h.next h.prev list.head (ptrs xs ++ ptrs ys) := by
  rw [← List.map_append]
  exact hr.spine.ring

/-- A node of the list or its sentinel is live. -/
theorem node (hr : Rep h list xs) {q : TokenListPtr} (hq : q ∈ list.head :: ptrs xs) :
    ∃ n, h.cell q = some n :=
  hr.live q (List.cons_subset_cons _ (ptrs_subset_area xs) hq)

/-- The link from the cells in front to those behind. -/
theorem node_front (hr : Rep h list (xs ++ ys)) :
    ∃ n, h.cell (front list xs) = some n ∧ n.next = back list ys :=
  Option.map_eq_some_iff.mp hr.cut.next_lastOf

/-- The head is there, and its next node is the first one. -/
theorem node_head (hr : Rep h list xs) :
    ∃ n, h.cell list.head = some n ∧ n.next = back list xs :=
  node_front (show Rep h list ([] ++ xs) from hr)

/-- The links of a node. -/
theorem node_at {c : Cell} (hr : Rep h list (xs ++ c :: ys)) :
    ∃ n, h.cell c.ptr = some n ∧ n.prev = front list xs ∧ n.next = back list ys ∧
      n.payload = c.payload := by
  obtain ⟨n, hn, hpl⟩ := hr.cell (List.mem_append_right xs List.mem_cons_self)
  have hprev := hr.cut.prev_firstOf
  have hnext : h.next (lastOf list.head (ptrs (xs ++ [c]))) = some (back list ys) :=
    (cut (show Rep h list (xs ++ [c] ++ ys) by simpa using hr)).next_lastOf
  rw [ptrs, List.map_append, List.map_singleton, lastOf_concat, Heap.next, hn] at hnext
  rw [Heap.prev, hn] at hprev
  exact ⟨n, hn, Option.some.inj hprev, Option.some.inj hnext, hpl⟩

/-- A node of the list is not its sentinel. -/
theorem ptr_ne_head {c : Cell} (hr : Rep h list (xs ++ c :: ys)) : c.ptr ≠ list.head := by
  intro he
  refine (List.nodup_cons.mp hr.spine.nodup).1 ?_
  rw [← he]
  exact ptr_mem_area (by simp)

/-- The addresses of a list with a cell are those of the cell and those of the list without. -/
theorem area_cut (head : TokenListPtr) (c : Cell) (xs ys : List Cell) :
    (head :: area (xs ++ c :: ys)).Perm ((c.ptr :: c.own) ++ (head :: area (xs ++ ys))) := by
  rw [area_append, area_cons, area_append]
  exact List.perm_append_comm_assoc (head :: area xs) (c.ptr :: c.own) (area ys)

/-- The addresses of a list are distinct exactly if those of one node, with its children, are, those
of the others are, and the two have none in common. -/
theorem nodup_cut {head : TokenListPtr} {c : Cell} :
    (head :: area (xs ++ c :: ys)).Nodup ↔ (c.ptr :: c.own).Nodup ∧
      (head :: area (xs ++ ys)).Nodup ∧ ∀ q ∈ c.ptr :: c.own, q ∉ head :: area (xs ++ ys) := by
  rw [(area_cut head c xs ys).nodup_iff, List.nodup_append]
  refine and_congr_right fun _ => and_congr_right fun _ => ?_
  exact ⟨fun h q hq hq' => h q hq q hq' rfl, fun h q hq q' hq' he => h q hq (he ▸ hq')⟩

/-- Links written at nodes of a list, or at its sentinel, leave what the cells own alone. -/
theorem owns_link {head p q a b : TokenListPtr} {c : Cell} (hnd : (head :: area xs).Nodup)
    (hc : c ∈ xs) (ho : Owns h c.payload c.tok c.own) (hp : p ∈ head :: ptrs xs)
    (hq : q ∈ head :: ptrs xs) : Owns (h.link p q a b) c.payload c.tok c.own := by
  obtain ⟨l, m, rfl⟩ := List.append_of_mem hc
  obtain ⟨hcnd, -, hdisj⟩ := nodup_cut.mp hnd
  have hne : ∀ r ∈ c.own, ∀ r' ∈ head :: ptrs (l ++ c :: m), r ≠ r' := by
    rintro r hr r' hr' rfl
    have h₁ := hdisj r (List.mem_cons_of_mem _ hr)
    simp only [ptrs, List.map_append, List.map_cons, List.mem_cons, List.mem_append] at hr'
    rcases hr' with rfl | h | rfl | h
    · exact h₁ List.mem_cons_self
    · exact h₁ (List.mem_cons_of_mem _ (ptrs_subset_area _ (by simp [ptrs, h])))
    · exact (List.nodup_cons.mp hcnd).1 hr
    · exact h₁ (List.mem_cons_of_mem _ (ptrs_subset_area _ (by simp [ptrs, h])))
  exact ho.frame fun r hr => Heap.link_cell_of_ne (hne r hr p hp) (hne r hr q hq)

/-- The fresh address is none of the list's. -/
theorem fresh_not_mem (hr : Rep h list xs) : h.fresh ∉ list.head :: area xs :=
  fun hf => Nat.lt_irrefl _ (hr.lt_fresh hf)

/-- `new` leaves a list as it is. -/
theorem alloc (hr : Rep h list xs) (n : TokenListNode) : Rep (h.alloc n) list xs :=
  hr.frame fun _ hq => Heap.alloc_cell_of_lt (hr.lt_fresh hq)

/-- A new node between the cells `xs` and `ys`. -/
theorem insert {pl : Payload} {tok : Tok} {own : List TokenListPtr} (hr : Rep h list (xs ++ ys))
    (ho : Owns h pl tok own) (hnd : own.Nodup)
    (hdisj : ∀ q ∈ list.head :: area (xs ++ ys), q ∉ own) :
    Rep ((h.alloc ⟨front list xs, back list ys, pl⟩).link (front list xs) (back list ys) h.fresh
        h.fresh)
      { list with length := list.length + 1 } (xs ++ ⟨h.fresh, pl, tok, own⟩ :: ys) := by
  have hr₁ := hr.alloc ⟨front list xs, back list ys, pl⟩
  have hfront := front_mem list xs ys
  have hback := back_mem list xs ys
  obtain ⟨p, hp⟩ := hr₁.node hfront
  obtain ⟨q, hq⟩ := hr₁.node hback
  have hfresh : h.fresh ∉ list.head :: ptrs (xs ++ ys) := fun hf =>
    hr.fresh_not_mem (List.cons_subset_cons _ (ptrs_subset_area _) hf)
  have hnf : h.fresh ≠ front list xs := fun he => hfresh (he ▸ hfront)
  have hnb : h.fresh ≠ back list ys := fun he => hfresh (he ▸ hback)
  have hnew := Heap.alloc_cell_fresh (h := h) (n := ⟨front list xs, back list ys, pl⟩)
  have hmap : ptrs (xs ++ ys) = ptrs xs ++ ptrs ys := List.map_append
  have hlive : ∀ r ∈ own, r < h.fresh := fun r hr =>
    (ho.live r hr).elim fun n hn => Heap.lt_fresh hn
  exact
    { spine :=
        { sentinel := by
            rw [Heap.link_payload]
            exact hr₁.spine.sentinel
          ring := by
            rw [ptrs, List.map_append, List.map_cons]
            refine hr₁.cut.insert (hmap ▸ hfresh) (Heap.link_next_self hp) ?_ ?_
              (fun _ => Heap.link_prev_self hq) (fun r _ hne => Heap.link_next_of_ne hne)
              (fun r _ hne => Heap.link_prev_of_ne hne)
            · rw [Heap.link_next_of_ne hnf, Heap.next, hnew]
              rfl
            · rw [Heap.link_prev_of_ne hnb, Heap.prev, hnew]
              rfl
          payloads := by
            intro c hc
            rw [Heap.link_payload]
            rcases List.mem_append.mp hc with hc | hc
            · exact hr₁.spine.payloads c (List.mem_append_left _ hc)
            · rcases List.mem_cons.mp hc with rfl | hc
              · rw [Heap.payload, hnew]
                rfl
              · exact hr₁.spine.payloads c (List.mem_append_right _ hc)
          nodup := by
            have hnd' : (h.fresh :: own).Nodup :=
              List.nodup_cons.mpr ⟨fun hf => Nat.lt_irrefl _ (hlive _ hf), hnd⟩
            refine nodup_cut.mpr ⟨hnd', hr.spine.nodup, fun r hr' hr'' => ?_⟩
            rcases List.mem_cons.mp hr' with rfl | hr'
            · exact hr.fresh_not_mem hr''
            · exact hdisj r hr'' hr' }
      length_eq := by
        simp only [hr.length_eq, List.length_append, List.length_cons]
        omega
      owns := by
        intro c hc
        have hold : c ∈ xs ++ ys →
            Owns ((h.alloc ⟨front list xs, back list ys, pl⟩).link (front list xs)
              (back list ys) h.fresh h.fresh) c.payload c.tok c.own :=
          fun hc => owns_link hr.spine.nodup hc (hr₁.owns c hc) hfront hback
        rcases List.mem_append.mp hc with hc | hc
        · exact hold (List.mem_append_left _ hc)
        · rcases List.mem_cons.mp hc with rfl | hc
          · -- What the new payload owns is outside the list, where nothing is written.
            refine ho.frame fun r hr' => ?_
            have hne : ∀ r' ∈ list.head :: ptrs (xs ++ ys), r ≠ r' := by
              rintro r' hr'' rfl
              exact hdisj r (List.cons_subset_cons _ (ptrs_subset_area _) hr'') hr'
            rw [Heap.link_cell_of_ne (hne _ hfront) (hne _ hback),
              Heap.alloc_cell_of_lt (hlive r hr')]
          · exact hold (List.mem_append_right _ hc) }

/-- A new node writes to nothing but the list, and takes over what its payload owns. -/
theorem insert_moved (h : Heap) (list : TokenList) (xs ys : List Cell) (pl : Payload) (tok : Tok)
    (own : List TokenListPtr) :
    Moved h ((h.alloc ⟨front list xs, back list ys, pl⟩).link (front list xs) (back list ys) h.fresh
        h.fresh)
      (own ++ list.head :: area (xs ++ ys))
      (list.head :: area (xs ++ ⟨h.fresh, pl, tok, own⟩ :: ys)) where
  fresh_le := Nat.le_succ _
  frame q hq hF := by
    have hF' : q ∉ list.head :: ptrs (xs ++ ys) := fun h =>
      hF (List.mem_append_right _ (List.cons_subset_cons _ (ptrs_subset_area _) h))
    rw [Heap.link_cell_of_ne (ne_of_mem_of_not_mem (front_mem list xs ys) hF').symm
      (ne_of_mem_of_not_mem (back_mem list xs ys) hF').symm, Heap.alloc_cell_of_lt hq]
  within q hq := by
    rw [(area_cut _ _ xs ys).mem_iff, List.cons_append] at hq
    rcases List.mem_cons.mp hq with rfl | hq
    · exact Or.inr (Nat.le_refl _)
    · exact Or.inl hq

/-- The list without the cell `c`, once the links around it are written and its addresses are
returned. -/
theorem remove {c : Cell} (hr : Rep h list (xs ++ c :: ys))
    (hcell : ∀ q ∉ c.ptr :: c.own, h'.cell q
      = (h.link (front list xs) (back list ys) (back list ys) (front list xs)).cell q) :
    Rep h' { list with length := list.length - 1 } (xs ++ ys) := by
  obtain ⟨hc, hnd, hdisj⟩ := nodup_cut.mp hr.spine.nodup
  have hfront := front_mem list xs ys
  have hback := back_mem list xs ys
  have hsub : list.head :: ptrs (xs ++ ys) ⊆ list.head :: ptrs (xs ++ c :: ys) :=
    List.cons_subset_cons _ (by simp [ptrs])
  obtain ⟨p, hp⟩ := hr.node (hsub hfront)
  obtain ⟨q, hq⟩ := hr.node (hsub hback)
  have hlinked : Rep (h.link (front list xs) (back list ys) (back list ys) (front list xs))
      { list with length := list.length - 1 } (xs ++ ys) := by
    refine ⟨⟨?_, ?_, fun c' hc' => ?_, hnd⟩, ?_, fun c' hc' => ?_⟩
    · rw [Heap.link_payload]
      exact hr.spine.sentinel
    · -- The two neighbours are linked, and the addresses around them are as they were.
      rw [ptrs, List.map_append]
      exact hr.cut.remove (Heap.link_next_self hp) (fun _ => Heap.link_prev_self hq)
        (fun r _ hne => Heap.link_next_of_ne hne) fun r _ hne => Heap.link_prev_of_ne hne
    · rw [Heap.link_payload]
      exact hr.spine.payloads c' (by simp at hc' ⊢; tauto)
    · simp only [hr.length_eq, List.length_append, List.length_cons]
      omega
    · exact owns_link hnd hc' (hr.owns c' (by simp at hc' ⊢; tauto)) hfront hback
  exact hlinked.frame fun r hr => hcell r fun hr' => hdisj r hr' hr

end Rep

/-! ### Destructors -/

/-- From `h` to `h'` exactly the memory at the addresses `F` was returned. The other cells are as
they were. -/
structure Freed (h h' : Heap) (F : List TokenListPtr) : Prop where
  fresh_eq : h'.fresh = h.fresh
  frame : ∀ q ∉ F, h'.cell q = h.cell q
  freed : ∀ q ∈ F, h'.cell q = none

namespace Freed

variable {h h' h'' : Heap} {F G : List TokenListPtr} {p : TokenListPtr}

/-- A deletion frees one address. -/
theorem erase (h : Heap) (p : TokenListPtr) : Freed h (h.erase p) [p] where
  fresh_eq := rfl
  frame q hq := Heap.erase_cell_of_ne (by simpa using hq)
  freed q hq := if_pos (by simpa using hq)

/-- Two operations free what either frees. -/
theorem trans (h₁ : Freed h h' F) (h₂ : Freed h' h'' G) : Freed h h'' (F ++ G) where
  fresh_eq := h₂.fresh_eq.trans h₁.fresh_eq
  frame q hq := by
    rw [List.mem_append, not_or] at hq
    rw [h₂.frame q hq.2, h₁.frame q hq.1]
  freed q hq := by
    by_cases hG : q ∈ G
    · exact h₂.freed q hG
    · rw [h₂.frame q hG]
      exact h₁.freed q ((List.mem_append.mp hq).resolve_right hG)

/-- Which addresses are freed does not depend on their order. -/
theorem congr (h₁ : Freed h h' F) (hFG : ∀ q, q ∈ F ↔ q ∈ G) : Freed h h' G where
  fresh_eq := h₁.fresh_eq
  frame q hq := h₁.frame q fun hF => hq ((hFG q).mp hF)
  freed q hq := h₁.freed q ((hFG q).mpr hq)

end Freed

/-- Different addresses below `n` are at most `n`. -/
theorem length_le_of_nodup_of_lt {l : List Nat} {n : Nat} (hnd : l.Nodup) (hlt : ∀ q ∈ l, q < n) :
    l.length ≤ n := by
  have hsub : l ⊆ List.range n := fun q hq => List.mem_range.mpr (hlt q hq)
  simpa using (List.Nodup.subperm hnd hsub).length_le

/-- With `fuel` the destructor of a payload frees what it owns. -/
def PayloadFreed (fuel : Nat) : Prop :=
  ∀ {h : Heap} {pl : Payload} {tok : Tok} {own : List TokenListPtr}, Owns h pl tok own →
    own.length < fuel →
    ∃ h', (deletePayload fuel pl).run h = pure ((), h') ∧ Freed h h' own

/-- With `fuel` the loop of the destructor frees the nodes it has not reached yet, `ys`, with what
they own, and the sentinel. `h₀` is the heap in which the list was whole. -/
def ListFreed (fuel : Nat) : Prop :=
  ∀ (xs : List Cell) {h h₀ : Heap} {list : TokenList} {ys : List Cell}, Rep h₀ list (xs ++ ys) →
    (∀ q ∈ list.head :: area ys, h.cell q = h₀.cell q) → (area ys).length < fuel →
    ∃ h', (deleteFrom fuel list.head (Rep.back list ys)).run h = pure ((), h') ∧
      Freed h h' (list.head :: area ys)

/-- Deleting a payload deletes the list of its children. -/
theorem payloadFreed_succ {fuel : Nat} (hlist : ListFreed fuel) : PayloadFreed (fuel + 1) := by
  intro h pl tok own ho hlt
  cases pl with
  | sentinel => cases ho
  | text value =>
    cases ho
    exact ⟨h, rfl, rfl, fun _ _ => rfl, by simp⟩
  | syn type children aliasName length =>
    obtain ⟨cs, hr, rfl⟩ := ho.children
    obtain ⟨n, hn, hnext⟩ := hr.node_head
    obtain ⟨h', hrun, hfreed⟩ := hlist [] hr (fun _ _ => rfl) (Nat.lt_of_succ_lt_succ hlt)
    refine ⟨h', ?_, hfreed⟩
    rw [deletePayload, StateT.run_bind, run_node hn, pure_bind, hnext, hrun]

/-- Deleting a list deletes its first node, with the children, and then the others. -/
theorem listFreed_succ {fuel : Nat} (hpayload : PayloadFreed fuel) (hlist : ListFreed fuel) :
    ListFreed (fuel + 1) := by
  intro xs h h₀ list ys hr hcell hlt
  cases ys with
  | nil =>
    obtain ⟨n, hn⟩ := hr.live list.head List.mem_cons_self
    rw [← hcell list.head List.mem_cons_self] at hn
    have hback : Rep.back list [] = list.head := rfl
    exact ⟨_, by rw [deleteFrom, if_pos hback, run_free hn], .erase h list.head⟩
  | cons c ys =>
    obtain ⟨n, hn, -, hnext, hpl⟩ := hr.node_at
    obtain ⟨hc, hnd, hdisj⟩ := Rep.nodup_cut.mp hr.spine.nodup
    obtain ⟨hcown, hown⟩ := List.nodup_cons.mp hc
    have hlen : (area (c :: ys)).length = 1 + c.own.length + (area ys).length := by
      simp only [area_cons, List.length_cons, List.length_append]
      omega
    have hcellc : h.cell c.ptr = some n := by rw [hcell _ (by simp), hn]
    have hne : c.ptr ≠ list.head := hr.ptr_ne_head
    -- The payload, then the node, then the rest of the list.
    have howns : Owns h c.payload c.tok c.own :=
      (hr.owns c (by simp)).frame fun q hq => hcell q (by simp [hq])
    obtain ⟨h₁, hrun₁, hfreed₁⟩ := hpayload howns (by omega)
    have hcell₁ : h₁.cell c.ptr = some n := by rw [hfreed₁.frame _ hcown, hcellc]
    have hfreed₂ := hfreed₁.trans (.erase h₁ c.ptr)
    have hagree : ∀ q ∈ list.head :: area ys, (h₁.erase c.ptr).cell q = h₀.cell q := by
      intro q hq
      have hq' : q ∉ c.own ++ [c.ptr] := by
        intro hq'
        refine hdisj q ?_ ?_
        · simp only [List.mem_append, List.mem_singleton] at hq'
          exact List.mem_cons.mpr hq'.symm
        · simp only [area_append, List.mem_cons, List.mem_append] at hq ⊢
          tauto
      rw [hfreed₂.frame q hq']
      refine hcell q ?_
      simp only [area_cons, List.mem_cons, List.mem_append] at hq ⊢
      tauto
    obtain ⟨h₂, hrun₂, hfreed₃⟩ := hlist (xs ++ [c]) (by simpa using hr) hagree (by omega)
    refine ⟨h₂, ?_, (hfreed₂.trans hfreed₃).congr fun q => ?_⟩
    · rw [Rep.back_cons, deleteFrom, if_neg hne, StateT.run_bind, run_node hcellc, pure_bind,
        StateT.run_bind, hpl, hrun₁, pure_bind, StateT.run_bind, run_free hcell₁, pure_bind, hnext,
        hrun₂]
    · simp only [area_cons, List.mem_append, List.mem_cons, List.mem_nil_iff, or_false]
      tauto

/-- The destructors free what their objects own. The induction is on the fuel. -/
theorem freed : ∀ fuel, PayloadFreed fuel ∧ ListFreed fuel
  | 0 => ⟨fun _ h => by simp at h, fun _ => fun _ _ h => by simp at h⟩
  | fuel + 1 =>
    have ⟨hpayload, hlist⟩ := freed fuel
    ⟨payloadFreed_succ hlist, listFreed_succ hpayload hlist⟩

namespace Rep

variable {h h' : Heap} {list : TokenList} {cs xs ys : List Cell}

/-- The destructor frees the list. -/
theorem destroy_run (hr : Rep h list cs) :
    ∃ h', list.destroy.run h = pure ((), h') ∧ Freed h h' (list.head :: area cs) := by
  obtain ⟨n, hn, hnext⟩ := hr.node_head
  have hlt : (area cs).length < h.fresh :=
    length_le_of_nodup_of_lt hr.spine.nodup fun q hq => hr.lt_fresh hq
  obtain ⟨h', hrun, hfreed⟩ := (freed h.fresh).2 [] hr (fun _ _ => rfl) hlt
  refine ⟨h', ?_, hfreed⟩
  simp only [TokenList.destroy, StateT.run_bind, run_node hn, StateT.run_get, pure_bind, hnext]
  exact hrun

/-- `delete` frees a node and what it owns. -/
theorem deleteItem_run {c : Cell} (hpl : h.payload c.ptr = some c.payload)
    (ho : Owns h c.payload c.tok c.own) (hnd : (c.ptr :: c.own).Nodup) :
    ∃ h', (TokenList.deleteItem c.ptr).run h = pure ((), h') ∧ Freed h h' (c.ptr :: c.own) := by
  obtain ⟨n, hn, hnpl⟩ := Heap.cell_of_payload hpl
  have hlt : c.own.length < h.fresh := by
    refine length_le_of_nodup_of_lt hnd fun q hq => ?_
    rcases List.mem_cons.mp hq with rfl | hq
    · exact Heap.lt_fresh hn
    · exact (ho.live q hq).elim fun _ => Heap.lt_fresh
  obtain ⟨h₁, hrun, hfreed⟩ := (freed h.fresh).1 ho hlt
  have hn₁ : h₁.cell c.ptr = some n := by
    rw [hfreed.frame _ (List.nodup_cons.mp hnd).1, hn]
  refine ⟨_, ?_, (hfreed.trans (.erase h₁ c.ptr)).congr fun q => ?_⟩
  · simp only [TokenList.deleteItem, StateT.run_bind, run_node hn, StateT.run_get, pure_bind, hnpl,
      hrun, run_free hn₁]
  · simp only [List.mem_append, List.mem_cons, List.mem_nil_iff, or_false]
    tauto

/-- `removeRange` deletes the `zs.length` nodes behind `xs`. -/
theorem removeRange_run : ∀ {zs : List Cell} {h : Heap} {list : TokenList},
    Rep h list (xs ++ (zs ++ ys)) →
    ∃ h', (list.removeRange (front list xs) zs.length).run h
        = ⟨.ok ({ list with length := list.length - zs.length }, h'),
            zs.map fun c => .deleted list.head c.ptr⟩ ∧
      Rep h' { list with length := list.length - zs.length } (xs ++ ys) ∧
      Moved h h' (list.head :: area (xs ++ (zs ++ ys))) (list.head :: area (xs ++ ys))
  | [], h, list, hr => ⟨h, rfl, hr, .refl (List.Subset.refl _)⟩
  | c :: zs, h, list, hr => by
    rw [List.cons_append] at hr ⊢
    have hsub : list.head :: ptrs (xs ++ (zs ++ ys)) ⊆ list.head :: ptrs (xs ++ c :: (zs ++ ys)) :=
      List.cons_subset_cons _ (by simp [ptrs])
    have hfront := hsub (front_mem list xs (zs ++ ys))
    have hback := hsub (back_mem list xs (zs ++ ys))
    obtain ⟨n, hn, -, hnext, -⟩ := hr.node_at
    obtain ⟨p, hp, hpnext⟩ := hr.node_front
    obtain ⟨m, hm⟩ := hr.node hback
    obtain ⟨hcnd, -, -⟩ := nodup_cut.mp hr.spine.nodup
    have hc : c ∈ xs ++ c :: (zs ++ ys) := by simp
    -- Unlink the node, and delete it.
    obtain ⟨h₂, hrun₂, hfreed₂⟩ := deleteItem_run
      (h := h.link (front list xs) (back list (zs ++ ys)) (back list (zs ++ ys)) (front list xs))
      (Heap.link_payload.trans (hr.spine.payloads c hc))
      (owns_link hr.spine.nodup hc (hr.owns c hc) hfront hback) hcnd
    have hr₂ := hr.remove hfreed₂.frame
    obtain ⟨h₃, hrun₃, hr₃, hmoved₃⟩ := removeRange_run hr₂
    have hlen : { list with length := list.length - (c :: zs).length }
        = { list with length := list.length - 1 - zs.length } := by
      rw [List.length_cons, Nat.sub_sub, Nat.add_comm]
    rw [hlen]
    refine ⟨h₃, ?_, hr₃, Moved.trans ⟨?_, fun q hq hF => ?_, fun q hq => ?_⟩ hmoved₃⟩
    · rw [List.length_cons, TokenList.removeRange]
      simp only [StateT.run_bind, run_node hp, pure_bind, hpnext, back_cons,
        if_neg (Heap.ne_nullptr hn), run_node hn, hnext]
      rw [run_link hp hm]
      simp only [run_emit, Traced.bind_ok, hrun₂, pure_bind]
      rw [hrun₃]
      rfl
    · exact Nat.le_of_eq hfreed₂.fresh_eq.symm
    · have hq' : q ∉ c.ptr :: c.own := fun h => hF ((area_cut _ c xs _).mem_iff.mpr
        (List.mem_append_left _ h))
      have hF' : q ∉ list.head :: ptrs (xs ++ c :: (zs ++ ys)) := fun h =>
        hF (List.cons_subset_cons _ (ptrs_subset_area _) h)
      rw [hfreed₂.frame q hq', Heap.link_cell_of_ne (ne_of_mem_of_not_mem hfront hF').symm
        (ne_of_mem_of_not_mem hback hF').symm]
    · exact Or.inl ((area_cut _ c xs _).mem_iff.mpr (List.mem_append_right _ hq))

/-! ### Constructors and insertions -/

/-- A sentinel that is linked to itself is an empty list. -/
theorem rep_nil {prev head : TokenListPtr} (hhead : h.cell head = some ⟨prev, head, .sentinel⟩) :
    Rep h ⟨head, 0⟩ [] := by
  refine ⟨⟨?_, .nil ?_, by simp, by simp⟩, rfl, by simp⟩
  · rw [Heap.payload, hhead]
    rfl
  · rw [Heap.next, hhead]
    rfl

/-- A sentinel and a `Text` that are linked to each other are a list. The code does not write the
link of the sentinel to the last node. -/
theorem rep_singleton {prev head p : TokenListPtr} {value : Bytes} (hne : head ≠ p)
    (hhead : h.cell head = some ⟨prev, p, .sentinel⟩)
    (hnode : h.cell p = some ⟨head, head, .text value⟩) :
    Rep h ⟨head, 1⟩ [⟨p, .text value, .text value, []⟩] where
  spine :=
    { sentinel := by
        rw [Heap.payload, hhead]
        rfl
      ring := by
        refine ⟨⟨?_, fun _ => ?_, ?_, fun hne => absurd rfl hne, trivial⟩, by simpa using hne⟩
        · rw [Heap.next, hhead]
          rfl
        · rw [Heap.prev, hnode]
          rfl
        · rw [Heap.next, hnode]
          rfl
      payloads := by
        intro c hc
        rw [List.mem_singleton.mp hc, Heap.payload, hnode]
        rfl
      nodup := by simpa using hne }
  length_eq := rfl
  owns := by
    intro c hc
    rw [List.mem_singleton.mp hc]
    exact .text value

/-- `TokenList(value)` makes a list of one `Text`. -/
theorem new_run (h : Heap) (value : Bytes) :
    ∃ h', (TokenList.new value).run h = pure (⟨h.fresh, 1⟩, h') ∧
      Rep h' ⟨h.fresh, 1⟩ [⟨h.fresh + 1, .text value, .text value, []⟩] ∧
      Moved h h' [] (h.fresh :: area [⟨h.fresh + 1, .text value, .text value, []⟩]) := by
  -- The second allocation leaves the sentinel, and `h'` is the heap once it leads to the node.
  have hsentinel : ((h.alloc ⟨nullptr, nullptr, .sentinel⟩).alloc
      ⟨h.fresh, h.fresh, .text value⟩).cell h.fresh = some ⟨nullptr, nullptr, .sentinel⟩ := by
    rw [Heap.alloc_cell_of_lt (Nat.lt_succ_self _), Heap.alloc_cell_fresh]
  obtain ⟨h', hh'⟩ : ∃ h', h' = ((h.alloc ⟨nullptr, nullptr, .sentinel⟩).alloc
    ⟨h.fresh, h.fresh, .text value⟩).modify h.fresh fun n => { n with next := h.fresh + 1 } :=
      ⟨_, rfl⟩
  have hhead : h'.cell h.fresh = some ⟨nullptr, h.fresh + 1, .sentinel⟩ := by
    simp [hh', Heap.modify, hsentinel]
  have hnode : h'.cell (h.fresh + 1) = some ⟨h.fresh, h.fresh, .text value⟩ := by
    simp [hh', Heap.modify, Heap.alloc]
  have hfresh : h'.fresh = h.fresh + 1 + 1 := by
    rw [hh']
    rfl
  refine ⟨h', ?_, rep_singleton (Nat.ne_of_lt (Nat.lt_succ_self _)) hhead hnode,
    ⟨?_, fun q hq _ => ?_, fun q hq => ?_⟩⟩
  · rw [hh', TokenList.new]
    simp only [StateT.run_bind, run_alloc, pure_bind]
    rw [show (h.alloc ⟨nullptr, nullptr, .sentinel⟩).fresh = h.fresh + 1 from rfl,
      run_setNext hsentinel]
    rfl
  · rw [hfresh]
    exact Nat.le_add_right _ 2
  · have h₁ : q ≠ h.fresh := Nat.ne_of_lt hq
    have h₂ : q ≠ h.fresh + 1 := Nat.ne_of_lt (Nat.lt_succ_of_lt hq)
    simp [hh', Heap.modify, Heap.alloc, h₁, h₂]
  · simp only [area_cons, area_nil, List.mem_cons, List.mem_nil_iff, or_false,
      List.nil_append] at hq
    right
    rcases hq with rfl | rfl
    · exact Nat.le_refl _
    · exact Nat.le_succ _

/-- A moved-from list is a new and empty list. -/
theorem move_run (h : Heap) (old : TokenList) :
    ∃ h', (TokenList.move old).run h = pure ((old, ⟨h.fresh, 0⟩), h') ∧ Rep h' ⟨h.fresh, 0⟩ [] ∧
      Moved h h' [] [h.fresh] := by
  obtain ⟨h', hh'⟩ : ∃ h', h' = (h.alloc ⟨nullptr, nullptr, .sentinel⟩).modify h.fresh
    fun n => { n with next := h.fresh } := ⟨_, rfl⟩
  have hhead : h'.cell h.fresh = some ⟨nullptr, h.fresh, .sentinel⟩ := by
    simp [hh', Heap.modify, Heap.alloc]
  refine ⟨h', ?_, rep_nil hhead, ⟨?_, fun q hq _ => ?_, fun q hq => ?_⟩⟩
  · rw [hh', TokenList.move]
    simp only [StateT.run_bind, run_alloc, pure_bind, run_setNext Heap.alloc_cell_fresh]
    rfl
  · rw [hh']
    exact Nat.le_succ _
  · have hne : q ≠ h.fresh := Nat.ne_of_lt hq
    simp [hh', Heap.modify, Heap.alloc, hne]
  · rw [List.mem_singleton.mp hq]
    exact Or.inr (Nat.le_refl _)

/-- `addAfter` puts a `Text` between the cells `xs` and `ys`. -/
theorem addAfterText_run (hr : Rep h list (xs ++ ys)) (value : Bytes) :
    ∃ h', (list.addAfterText (front list xs) value).run h
        = pure ((h.fresh, { list with length := list.length + 1 }), h') ∧
      Rep h' { list with length := list.length + 1 }
        (xs ++ ⟨h.fresh, .text value, .text value, []⟩ :: ys) ∧
      Moved h h' (list.head :: area (xs ++ ys))
        (list.head :: area (xs ++ ⟨h.fresh, .text value, .text value, []⟩ :: ys)) := by
  have hr₁ := hr.alloc ⟨front list xs, back list ys, .text value⟩
  obtain ⟨n, hn, hnext⟩ := hr.node_front
  obtain ⟨n₁, hn₁⟩ := hr₁.node (front_mem list xs ys)
  obtain ⟨m₁, hm₁⟩ := hr₁.node (back_mem list xs ys)
  refine ⟨_, ?_, hr.insert (.text value) List.nodup_nil (by simp), insert_moved h list xs ys _ _ []⟩
  simp only [TokenList.addAfterText, StateT.run_bind, run_node hn, run_alloc, pure_bind, hnext]
  rw [run_link hn₁ hm₁]
  rfl

/-- `addAfter` puts a `Syntax` between the cells `xs` and `ys`, which takes over the list
`children`. -/
theorem addAfterSyntax_run {children : TokenList} (hr : Rep h list (xs ++ ys))
    (hc : Rep h children cs)
    (hdisj : ∀ q ∈ list.head :: area (xs ++ ys), q ∉ children.head :: area cs)
    (type aliasName : Bytes) (length : Nat) :
    ∃ (c : Cell) (movedFrom : TokenList) (h' : Heap),
      (list.addAfterSyntax (front list xs) type children aliasName length).run h
        = pure ((c.ptr, { list with length := list.length + 1 }, movedFrom), h') ∧
      c.payload = .syn type children aliasName length ∧
      c.tok = .syn type (cs.map (·.tok)) aliasName length ∧
      Rep h' { list with length := list.length + 1 } (xs ++ c :: ys) ∧ Rep h' movedFrom [] ∧
      movedFrom.head ∉ list.head :: area (xs ++ c :: ys) ∧
      Moved h h' (children.head :: area cs ++ list.head :: area (xs ++ ys))
        (movedFrom.head :: list.head :: area (xs ++ c :: ys)) := by
  obtain ⟨n, hn, hnext⟩ := hr.node_front
  obtain ⟨h₁, hrun₁, hfrom₁, hmoved₁⟩ := move_run h children
  have hr₁ := hmoved₁.rep hr (by simp)
  have hc₁ := hmoved₁.rep hc (by simp)
  have ho := hc₁.syn type aliasName length
  have hr₂ := hr₁.alloc ⟨front list xs, back list ys, .syn type children aliasName length⟩
  obtain ⟨n₂, hn₂⟩ := hr₂.node (front_mem list xs ys)
  obtain ⟨m₂, hm₂⟩ := hr₂.node (back_mem list xs ys)
  have hmoved₂ := insert_moved h₁ list xs ys (.syn type children aliasName length)
    (.syn type (cs.map (·.tok)) aliasName length) (children.head :: area cs)
  -- The moved-from list is newer than everything the program owns.
  have hfresh : ∀ q ∈ TokenList.head ⟨h.fresh, 0⟩ :: area [],
      q ∉ (children.head :: area cs) ++ list.head :: area (xs ++ ys) := by
    intro q hq hq'
    obtain rfl : q = h.fresh := by simpa using hq
    rcases List.mem_append.mp hq' with hq' | hq'
    · exact hc.fresh_not_mem hq'
    · exact hr.fresh_not_mem hq'
  refine ⟨⟨h₁.fresh, .syn type children aliasName length, _, children.head :: area cs⟩,
    ⟨h.fresh, 0⟩, _, ?_, rfl, rfl, hr₁.insert ho hc.spine.nodup hdisj, hmoved₂.rep hfrom₁ hfresh,
    hmoved₂.disjoint hfrom₁ hfresh _ List.mem_cons_self, ?_⟩
  · simp only [TokenList.addAfterSyntax, StateT.run_bind, run_node hn, pure_bind, hrun₁, run_alloc,
      hnext]
    rw [run_link hn₂ hm₂]
    rfl
  · refine (hmoved₁.mono (List.nil_subset _) fun q hq => ?_).trans
      (hmoved₂.mono (List.subset_cons_self h.fresh _) fun q hq => ?_)
    · simpa [or_comm] using hq
    · simp only [List.mem_cons] at hq ⊢
      tauto

end Rep

end TSubSpec.Prisma
