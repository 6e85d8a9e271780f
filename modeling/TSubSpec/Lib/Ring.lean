import Mathlib.Data.List.Induction

/-!
# `TSubSpec.Lib.Ring`: circular doubly linked lists

A memory is read through two partial functions: `next a` and `prev a` are what the two links of
the node at `a` hold, and `none` when there is no such node. `Ring next prev head qs` says that
following `next` from the sentinel `head` visits the distinct nodes `qs` and comes back to `head`,
and that each node of `qs` points back at the one before it. The back link of the sentinel is left
open, so a list that never maintains it is a ring too.

`Ring.insert` and `Ring.remove` are the two edits. They ask what the edited memory holds at the
links they write and that the other links of the ring are as they were, so they do not depend on
how a program performs the edit.

`walk` is an iteration from the first node to the sentinel, and `Linked` is what it can reach.
-/

set_option autoImplicit false

namespace TSubSpec.Lib

variable {α : Type}

/-- Consecutive addresses of the list are linked both ways. No back link is asked of `head`. -/
def Links (next prev : α → Option α) (head : α) : List α → Prop
  | x :: y :: l => next x = some y ∧ (y ≠ head → prev y = some x) ∧ Links next prev head (y :: l)
  | _ => True

/-- The list with sentinel `head` and nodes `qs`: following `next` from the sentinel gives the nodes
in order and ends at the sentinel, and from each node `prev` leads back. -/
structure Ring (next prev : α → Option α) (head : α) (qs : List α) : Prop where
  links : Links next prev head (head :: (qs ++ [head]))
  nodup : (head :: qs).Nodup

variable {next prev next' prev' : α → Option α} {head : α}

/-- The address in front of what follows `xs`: the last of `xs`, or the sentinel. -/
def lastOf (head : α) (xs : List α) : α := xs.getLastD head

/-- The address behind what precedes `ys`: the first of `ys`, or the sentinel. -/
def firstOf (head : α) (ys : List α) : α := ys.headD head

/-- Of no nodes the last one is the head itself. -/
@[simp] theorem lastOf_nil : lastOf head [] = head := rfl

/-- The last node is the one at the end. -/
@[simp] theorem lastOf_concat (xs : List α) (x : α) : lastOf head (xs ++ [x]) = x :=
  List.getLastD_concat

/-- Of no nodes the first one is the head itself. -/
@[simp] theorem firstOf_nil : firstOf head [] = head := rfl

/-- The first node is the one at the front. -/
@[simp] theorem firstOf_cons (y : α) (ys : List α) : firstOf head (y :: ys) = y := rfl

/-- The last node is the head or one of the nodes. -/
theorem lastOf_mem (head : α) (xs : List α) : lastOf head xs ∈ head :: xs := List.getLastD_mem_cons

/-- The first node is one of the nodes or the head. -/
theorem firstOf_mem (head : α) : ∀ ys : List α, firstOf head ys ∈ ys ++ [head]
  | [] => by simp
  | y :: ys => by simp

/-- A list with the sentinel in front ends in `lastOf`. -/
theorem exists_eq_append_lastOf (head : α) (xs : List α) :
    ∃ l, head :: xs = l ++ [lastOf head xs] := by
  rcases List.eq_nil_or_concat xs with rfl | ⟨l, x, rfl⟩
  · exact ⟨[], rfl⟩
  · exact ⟨head :: l, by simp⟩

/-- A list with the sentinel behind starts with `firstOf`. -/
theorem exists_eq_cons_firstOf (head : α) : ∀ ys : List α, ∃ l, ys ++ [head] = firstOf head ys :: l
  | [] => ⟨[], rfl⟩
  | _ :: ys => ⟨ys ++ [head], rfl⟩

/-- The links of a concatenation: those of both parts, which share the address at the seam. -/
theorem links_append : ∀ (l₁ : List α) (x : α) (l₂ : List α),
    Links next prev head (l₁ ++ x :: l₂) ↔
      Links next prev head (l₁ ++ [x]) ∧ Links next prev head (x :: l₂)
  | [], x, l₂ => by simp [Links]
  | [a], x, l₂ => by simp [Links, and_assoc]
  | a :: b :: l₁, x, l₂ => by
    have ih := links_append (b :: l₁) x l₂
    simp only [List.cons_append] at ih ⊢
    rw [Links, Links, ih]
    simp only [and_assoc]

/-- The links of a ring, cut between `xs` and `ys`. -/
theorem links_cut (xs ys : List α) : Links next prev head (head :: (xs ++ (ys ++ [head]))) ↔
    Links next prev head (head :: xs) ∧ next (lastOf head xs) = some (firstOf head ys) ∧
      (firstOf head ys ≠ head → prev (firstOf head ys) = some (lastOf head xs)) ∧
      Links next prev head (ys ++ [head]) := by
  obtain ⟨l, hl⟩ := exists_eq_append_lastOf head xs
  obtain ⟨m, hm⟩ := exists_eq_cons_firstOf head ys
  rw [← List.cons_append, hl, hm, List.append_assoc, List.singleton_append, links_append, Links]

/-- Links depend on `next` of every address but the last, and on `prev` of every address but
the first. -/
theorem Links.congr : ∀ {l : List α} {y : α}, Links next prev head (l ++ [y]) →
    (∀ x ∈ l, next' x = next x) →
    (∀ x ∈ (l ++ [y]).tail, x ≠ head → prev' x = prev x) → Links next' prev' head (l ++ [y])
  | [], y, _, _, _ => trivial
  | [a], y, h, hn, hp => by
    obtain ⟨h₁, h₂, -⟩ := h
    exact ⟨by rw [hn a (by simp), h₁], fun hy => by rw [hp y (by simp) hy, h₂ hy], trivial⟩
  | a :: b :: l, y, h, hn, hp => by
    obtain ⟨h₁, h₂, h₃⟩ := h
    refine ⟨by rw [hn a (by simp), h₁], fun hb => by rw [hp b (by simp) hb, h₂ hb], ?_⟩
    refine Links.congr (l := b :: l) h₃ (fun x hx => hn x (by simp [hx])) fun x hx => hp x ?_
    simp only [List.cons_append, List.tail_cons] at hx ⊢
    exact List.mem_cons_of_mem _ hx

/-- Both parts of a cut survive an edit of the links at the cut. -/
theorem links_edit {xs ys : List α} (hnd : (head :: (xs ++ ys)).Nodup)
    (hnext : ∀ x ∈ head :: (xs ++ ys), x ≠ lastOf head xs → next' x = next x)
    (hprev : ∀ x ∈ xs ++ ys, x ≠ firstOf head ys → prev' x = prev x)
    (h₁ : Links next prev head (head :: xs)) (h₂ : Links next prev head (ys ++ [head])) :
    Links next' prev' head (head :: xs) ∧ Links next' prev' head (ys ++ [head]) := by
  have hlast := lastOf_mem head xs
  have hfirst := firstOf_mem head ys
  rw [← List.cons_append] at hnd
  obtain ⟨hxs, hys, hdisj⟩ := List.nodup_append.mp hnd
  constructor
  · -- The part in front of the cut: only the node at its end has a link into the other part.
    obtain ⟨l, hl⟩ := exists_eq_append_lastOf head xs
    rw [hl] at h₁ ⊢
    refine h₁.congr (fun x hx => hnext x ?_ ?_) fun x hx hne => hprev x ?_ ?_
    · rw [← List.cons_append, hl]
      simp [hx]
    · rintro rfl
      rw [hl] at hxs
      exact (List.nodup_append.mp hxs).2.2 _ hx _ (by simp) rfl
    · rw [← hl, List.tail_cons] at hx
      exact List.mem_append_left _ hx
    · rintro rfl
      rw [← hl, List.tail_cons] at hx
      rcases List.mem_append.mp hfirst with h | h
      · exact hdisj _ (by simp [hx]) _ h rfl
      · exact hne (List.mem_singleton.mp h)
  · -- The part behind the cut, from the other side: only its first node points back.
    refine h₂.congr (fun x hx => hnext x (by simp [hx]) ?_) fun x hx hne => hprev x ?_ ?_
    · rintro rfl
      exact hdisj _ hlast _ hx rfl
    · rcases List.mem_append.mp (List.mem_of_mem_tail hx) with h | h
      · exact List.mem_append_right _ h
      · exact absurd (List.mem_singleton.mp h) hne
    · cases ys with
      | nil => simp at hx
      | cons y ys =>
        rintro rfl
        simp only [List.cons_append, List.tail_cons, List.mem_append, List.mem_singleton] at hx
        exact (List.nodup_cons.mp hys).1 (hx.resolve_right hne)

/-- The links forward up to the sentinel say which addresses lie in between. -/
theorem Links.unique : ∀ {x : α} {xs ys : List α}, head ∉ xs → head ∉ ys →
    Links next prev head (x :: (xs ++ [head])) → Links next prev head (x :: (ys ++ [head])) →
      xs = ys
  | x, [], [], _, _, _, _ => rfl
  | x, [], y :: ys, _, hys, ⟨hx, _⟩, ⟨hy, _⟩ => by
    rw [hx] at hy
    exact (hys (by rw [Option.some.inj hy]; exact List.mem_cons_self)).elim
  | x, a :: xs, [], hxs, _, ⟨hx, _⟩, ⟨hy, _⟩ => by
    rw [hx] at hy
    exact (hxs (by rw [Option.some.inj hy]; exact List.mem_cons_self)).elim
  | x, a :: xs, y :: ys, hxs, hys, ⟨hx, _, hxl⟩, ⟨hy, _, hyl⟩ => by
    rw [hx] at hy
    obtain rfl := Option.some.inj hy
    rw [Links.unique (fun h => hxs (List.mem_cons_of_mem _ h))
      (fun h => hys (List.mem_cons_of_mem _ h)) hxl hyl]

namespace Ring

variable {xs ys : List α}

/-- A memory holds at most one list at a sentinel. -/
theorem unique (hx : Ring next prev head xs) (hy : Ring next prev head ys) : xs = ys :=
  hx.links.unique (List.nodup_cons.mp hx.nodup).1 (List.nodup_cons.mp hy.nodup).1 hy.links

/-- The link forward at a cut. -/
theorem next_lastOf (h : Ring next prev head (xs ++ ys)) :
    next (lastOf head xs) = some (firstOf head ys) := by
  have := h.links
  rw [List.append_assoc, links_cut] at this
  exact this.2.1

/-- The link back at a cut in front of a node. -/
theorem prev_firstOf {y : α} (h : Ring next prev head (xs ++ y :: ys)) :
    prev y = some (lastOf head xs) := by
  have hl := h.links
  rw [List.append_assoc, links_cut] at hl
  refine hl.2.2.1 fun heq => (List.nodup_cons.mp h.nodup).1 (List.mem_append_right xs ?_)
  rw [firstOf_cons] at heq
  exact heq ▸ List.mem_cons_self

/-- The node in front of a node of the ring points at it. -/
theorem next_prev {q : α} (h : Ring next prev head xs) (hq : q ∈ xs) :
    ∃ p, prev q = some p ∧ next p = some q := by
  obtain ⟨l, m, rfl⟩ := List.append_of_mem hq
  exact ⟨_, h.prev_firstOf, h.next_lastOf⟩

/-- Following `next` one does not leave the ring. -/
theorem next_mem {p q : α} (h : Ring next prev head xs) (hp : p ∈ head :: xs)
    (hq : next p = some q) : q ∈ head :: xs := by
  have hfirst : ∀ ys : List α, ys ⊆ xs → firstOf head ys ∈ head :: xs := by
    intro ys hsub
    have hmem := firstOf_mem head ys
    simp only [List.mem_append, List.mem_cons, List.mem_nil_iff, or_false] at hmem ⊢
    exact hmem.symm.imp_right fun h => hsub h
  rcases List.mem_cons.mp hp with rfl | hp
  · have hnext := next_lastOf (show Ring next prev p ([] ++ xs) from h)
    rw [lastOf_nil, hq] at hnext
    exact Option.some.inj hnext ▸ hfirst xs (List.Subset.refl _)
  · -- Cut behind the node: what follows it is the first node of the rest, or the sentinel.
    obtain ⟨l, m, rfl⟩ := List.append_of_mem hp
    have hcut : l ++ p :: m = (l ++ [p]) ++ m := by simp
    have hnext := (hcut ▸ h).next_lastOf
    rw [lastOf_concat, hq] at hnext
    exact Option.some.inj hnext ▸ hfirst m (by simp)

/-- A ring is one in every memory with the same links. -/
theorem congr (h : Ring next prev head xs) (hnext : ∀ x ∈ head :: xs, next' x = next x)
    (hprev : ∀ x ∈ xs, prev' x = prev x) : Ring next' prev' head xs where
  nodup := h.nodup
  links := by
    have := h.links
    rw [← List.cons_append] at this ⊢
    refine this.congr (fun x hx => hnext x hx) fun x hx hne => hprev x ?_
    simpa [hne] using hx

/-- The sentinel alone. -/
theorem nil (h : next head = some head) : Ring next prev head [] where
  nodup := by simp
  links := ⟨h, fun hne => absurd rfl hne, trivial⟩

/-- Putting a new node between `xs` and `ys`. -/
theorem insert {new : α} (h : Ring next prev head (xs ++ ys)) (hnew : new ∉ head :: (xs ++ ys))
    (hlast : next' (lastOf head xs) = some new) (hnext : next' new = some (firstOf head ys))
    (hprev : prev' new = some (lastOf head xs))
    (hfirst : firstOf head ys ≠ head → prev' (firstOf head ys) = some new)
    (hnexts : ∀ x ∈ head :: (xs ++ ys), x ≠ lastOf head xs → next' x = next x)
    (hprevs : ∀ x ∈ xs ++ ys, x ≠ firstOf head ys → prev' x = prev x) :
    Ring next' prev' head (xs ++ new :: ys) := by
  have hl := h.links
  rw [List.append_assoc, links_cut] at hl
  obtain ⟨h₁, h₂⟩ := links_edit h.nodup hnexts hprevs hl.1 hl.2.2.2
  refine ⟨?_, ?_⟩
  · rw [List.append_assoc, links_cut]
    refine ⟨h₁, hlast, fun _ => hprev, ?_⟩
    obtain ⟨m, hm⟩ := exists_eq_cons_firstOf head ys
    rw [hm] at h₂
    rw [List.cons_append, hm]
    exact ⟨hnext, hfirst, h₂⟩
  · have hperm : (head :: (xs ++ new :: ys)).Perm (new :: head :: (xs ++ ys)) :=
      (List.perm_middle.cons head).trans (List.Perm.swap _ _ _)
    rw [hperm.nodup_iff]
    exact List.nodup_cons.mpr ⟨hnew, h.nodup⟩

/-- Taking the node `item` between `xs` and `ys` out. -/
theorem remove {item : α} (h : Ring next prev head (xs ++ item :: ys))
    (hlast : next' (lastOf head xs) = some (firstOf head ys))
    (hfirst : firstOf head ys ≠ head → prev' (firstOf head ys) = some (lastOf head xs))
    (hnexts : ∀ x ∈ head :: (xs ++ ys), x ≠ lastOf head xs → next' x = next x)
    (hprevs : ∀ x ∈ xs ++ ys, x ≠ firstOf head ys → prev' x = prev x) :
    Ring next' prev' head (xs ++ ys) := by
  have hl := h.links
  rw [List.append_assoc, links_cut, List.cons_append] at hl
  obtain ⟨m, hm⟩ := exists_eq_cons_firstOf head ys
  have htail : Links next prev head (ys ++ [head]) := by
    have := hl.2.2.2
    rw [hm] at this ⊢
    exact this.2.2
  have hnd : (head :: (xs ++ ys)).Nodup :=
    h.nodup.sublist (((List.sublist_cons_self item ys).append_left xs).cons_cons head)
  obtain ⟨h₁, h₂⟩ := links_edit hnd hnexts hprevs hl.1 htail
  refine ⟨?_, hnd⟩
  rw [List.append_assoc, links_cut]
  exact ⟨h₁, hlast, hfirst, h₂⟩

end Ring

/-! ### Iterations -/

/-- The nodes from `a` on, up to the sentinel, if the sentinel is reached in fewer than `fuel`
turns. -/
def walk [DecidableEq α] (next : α → Option α) (head : α) : Nat → α → Option (List α)
  | 0, _ => none
  | fuel + 1, a =>
    if a = head then some []
    else (next a).bind fun b => (walk next head fuel b).map (a :: ·)

/-- What is reached from the sentinel by following `next`. In a ring these are the sentinel and the
nodes. -/
inductive Linked (next : α → Option α) (head : α) : α → Prop
  | head : Linked next head head
  | next {a b : α} (prior : Linked next head a) (link : next a = some b) : Linked next head b

namespace Ring

variable {xs ys : List α}

/-- An iteration visits the nodes of a ring in order, by induction on those not visited yet. -/
theorem walk_eq [DecidableEq α] {fuel : Nat} (h : Ring next prev head (xs ++ ys))
    (hlt : ys.length < fuel) : walk next head fuel (firstOf head ys) = some ys := by
  induction ys generalizing xs fuel with
  | nil =>
    obtain ⟨fuel, rfl⟩ := Nat.exists_eq_add_one.mpr hlt
    exact if_pos rfl
  | cons y ys ih =>
    obtain ⟨fuel, rfl⟩ := Nat.exists_eq_add_one.mpr (Nat.zero_lt_of_lt hlt)
    have hne : y ≠ head := by
      rintro rfl
      exact (List.nodup_cons.mp h.nodup).1 (List.mem_append_right _ List.mem_cons_self)
    -- The node is visited, and moves to the part in front of the cut.
    have hcut : xs ++ y :: ys = (xs ++ [y]) ++ ys := by simp
    rw [hcut] at h
    have hnext := h.next_lastOf
    rw [lastOf_concat] at hnext
    rw [firstOf_cons, walk, if_neg hne, hnext, Option.bind_some,
      ih h (Nat.lt_of_succ_lt_succ hlt), Option.map_some]

/-- What is reached is the sentinel and the nodes. -/
theorem linked_iff {a : α} (h : Ring next prev head xs) :
    Linked next head a ↔ a ∈ head :: xs := by
  constructor
  · intro ha
    induction ha with
    | head => exact List.mem_cons_self
    | next _ link ih => exact h.next_mem ih link
  · intro ha
    -- Every prefix ends in an address that is reached.
    have hlast : ∀ l m, xs = l ++ m → Linked next head (lastOf head l) := by
      intro l
      induction l using List.reverseRecOn with
      | nil => exact fun _ _ => .head
      | append_singleton l b ih =>
        rintro m rfl
        have hcut : l ++ [b] ++ m = l ++ b :: m := by simp
        rw [hcut] at h
        have hprior := ih (b :: m) hcut
        rw [lastOf_concat]
        exact .next hprior h.next_lastOf
    rcases List.mem_cons.mp ha with rfl | ha
    · exact .head
    · obtain ⟨l, m, rfl⟩ := List.append_of_mem ha
      have hreached := hlast (l ++ [a]) m (by simp)
      rw [lastOf_concat] at hreached
      exact hreached

end Ring

end TSubSpec.Lib
