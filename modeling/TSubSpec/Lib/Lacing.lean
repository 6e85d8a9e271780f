import Mathlib.Algebra.Ring.Nat
import Mathlib.Data.List.Basic

/-!
# `TSubSpec.Lib.Lacing`: messages in segments

A message is cut into segments of a fixed size and a last one that is shorter, so the end of a
message can be seen from the size of a segment (`lace`). The other direction needs nothing but a
test for the last element of a group: `groups` are the groups that are complete, `rest` is what
stands behind them. Both can be computed piece by piece (`groups_append`, `rest_append`).
-/

set_option autoImplicit false

namespace TSubSpec.Lib.Lacing

section

variable {α : Type}

/-- Pieces of the given sizes, one behind the other. Where the sizes ask for more than there is, the
last pieces are shorter, and what is left over behind the last size is dropped. -/
def cut : List Nat → List α → List (List α)
  | [], _ => []
  | k :: ks, xs => xs.take k :: cut ks (xs.drop k)

/-- The sizes of the segments of a message: full ones as long as they fit, and then what is left,
which can be nothing. The last size is always below `n`, so a reader knows where the message
ends. -/
def sizes (n length : Nat) : List Nat := List.replicate (length / n) n ++ [length % n]

/-- The segments of a message. There is always at least one, since a message whose length is a
multiple of `n` ends with an empty segment. -/
def lace (n : Nat) (message : List α) : List (List α) := cut (sizes n message.length) message

/-- The pieces have the sizes that were asked for, if there is enough to cut. Without that the last
ones would be shorter. -/
theorem map_length_cut {ks : List Nat} {xs : List α} (h : ks.sum ≤ xs.length) :
    (cut ks xs).map List.length = ks := by
  induction ks generalizing xs with
  | nil => rfl
  | cons k ks ih =>
    rw [List.sum_cons] at h
    rw [cut, List.map_cons, List.length_take, Nat.min_eq_left (by omega),
      ih (by rw [List.length_drop]; omega)]

/-- The pieces put together again are the front of what was cut, as much of it as the sizes ask
for. -/
theorem flatten_cut (ks : List Nat) (xs : List α) : (cut ks xs).flatten = xs.take ks.sum := by
  induction ks generalizing xs with
  | nil => rfl
  | cons k ks ih => rw [cut, List.flatten_cons, ih, List.sum_cons, List.take_add]

/-- Pieces are found again from their sizes, whatever follows them. This is how a reader of a
segment table gets the segments back. -/
theorem cut_flatten (pieces : List (List α)) (xs : List α) :
    cut (pieces.map List.length) (pieces.flatten ++ xs) = pieces := by
  induction pieces with
  | nil => rfl
  | cons piece pieces ih =>
    rw [List.map_cons, cut, List.flatten_cons, List.append_assoc, List.take_left, List.drop_left,
      ih]

/-- The sizes of the segments of a message add up to its length. -/
theorem sum_sizes (n length : Nat) : (sizes n length).sum = length := by
  rw [sizes, List.sum_append, List.sum_replicate_nat, List.sum_singleton, Nat.mul_comm]
  exact Nat.div_add_mod length n

/-- The segments of a message put together are the message, so nothing is lost by cutting it, and
nothing is added. -/
theorem flatten_lace (n : Nat) (message : List α) : (lace n message).flatten = message := by
  rw [lace, flatten_cut, sum_sizes, List.take_length]

/-- The segments of a message have the sizes that the segment table lists. -/
theorem map_length_lace (n : Nat) (message : List α) :
    (lace n message).map List.length = sizes n message.length :=
  map_length_cut (Nat.le_of_eq (sum_sizes n _))

/-- The full segments of a message, and the last one. Only the last one is shorter than `n`, which
is what tells where the message ends. -/
theorem lace_eq {n : Nat} (hn : 0 < n) (message : List α) :
    ∃ full last, lace n message = full ++ [last] ∧ full.length = message.length / n ∧
      (∀ b ∈ full, b.length = n) ∧ last.length = message.length % n ∧ last.length < n := by
  have hlengths := map_length_lace n message
  unfold sizes at hlengths
  obtain ⟨full, tail, hlace, hfull, htail⟩ := List.map_eq_append_iff.mp hlengths
  obtain ⟨last, hlast, hlength⟩ := List.map_eq_singleton_iff.mp htail
  refine ⟨full, last, by rw [hlace, hlast], ?_, fun b hb => ?_, hlength, ?_⟩
  · rw [← List.length_map List.length, hfull, List.length_replicate]
  · have hmem : b.length ∈ full.map List.length := List.mem_map_of_mem hb
    rw [hfull] at hmem
    exact List.eq_of_mem_replicate hmem
  · rw [hlength]
    exact Nat.mod_lt _ hn

end

section

variable {β : Type} (ends : β → Bool)

/-- Splits behind each last element. The first component are the parts that end with one, and the
second is what stands behind all of them. -/
def split : List β → List (List β) × List β
  | [] => ([], [])
  | x :: xs =>
    if ends x then ([x] :: (split xs).1, (split xs).2)
    else
      match split xs with
      | ([], r) => ([], x :: r)
      | (g :: gs, r) => ((x :: g) :: gs, r)

/-- The complete groups: the parts of the string that end with a last element, and have no other
one. -/
def groups (xs : List β) : List (List β) := (split ends xs).1

/-- What stands behind the last element of the last complete group. It is the beginning of a group
whose end has not come yet. -/
def rest (xs : List β) : List β := (split ends xs).2

/-- What stands behind the first complete group, and nothing if there is none. A reader that comes
in the middle of a group leaves out the elements up to there. -/
def behind : List β → List β
  | [] => []
  | x :: xs => if ends x then xs else behind xs

/-- A complete group ends with its only last element. So where two groups follow each other, the
border between them can be found from the elements alone. -/
def IsGroup (g : List β) : Prop :=
  ∃ init x, g = init ++ [x] ∧ (∀ y ∈ init, ends y = false) ∧ ends x = true

variable {ends} {x : β} {xs ys g r : List β} {gs : List (List β)}

/-- In an empty string there is no complete group. The two lemmas on the empty string are the base
of every induction here, so they are in the simp set. -/
@[simp] theorem groups_nil : groups ends ([] : List β) = [] := rfl

/-- Behind the complete groups of an empty string there is nothing. -/
@[simp] theorem rest_nil : rest ends ([] : List β) = [] := rfl

/-- A last element at the front is a group of its own. -/
theorem groups_cons_of_ends (h : ends x = true) (xs : List β) :
    groups ends (x :: xs) = [x] :: groups ends xs := by
  rw [groups, split, if_pos h]
  rfl

/-- A last element at the front does not change what stands behind the complete groups. -/
theorem rest_cons_of_ends (h : ends x = true) (xs : List β) :
    rest ends (x :: xs) = rest ends xs := by
  rw [rest, split, if_pos h]
  rfl

/-- Without a last element there is no complete group, and the whole string is what stands behind
the groups. -/
theorem split_of_open (h : ∀ x ∈ r, ends x = false) : split ends r = ([], r) := by
  induction r with
  | nil => rfl
  | cons x xs ih =>
    rw [split, if_neg (by rw [h x List.mem_cons_self]; exact Bool.false_ne_true),
      ih fun y hy => h y (List.mem_cons_of_mem _ hy)]

/-- A string without a last element has no complete group. -/
theorem groups_of_open (h : ∀ x ∈ r, ends x = false) : groups ends r = [] := by
  rw [groups, split_of_open h]

/-- A string without a last element is left as a whole. -/
theorem rest_of_open (h : ∀ x ∈ r, ends x = false) : rest ends r = r := by
  rw [rest, split_of_open h]

/-- A complete group at the front is the first one, and the others are those of what follows it. -/
theorem split_group (h : IsGroup ends g) (xs : List β) :
    split ends (g ++ xs) = (g :: groups ends xs, rest ends xs) := by
  obtain ⟨init, x, rfl, hinit, hx⟩ := h
  induction init with
  | nil =>
    show split ends (x :: xs) = _
    rw [split, if_pos hx]
    rfl
  | cons y init ih =>
    show split ends (y :: (init ++ [x] ++ xs)) = _
    rw [split, if_neg (by rw [hinit y List.mem_cons_self]; exact Bool.false_ne_true),
      ih fun z hz => hinit z (List.mem_cons_of_mem _ hz)]
    rfl

/-- A complete group at the front comes first, and the groups behind it are those of the other
string. -/
theorem groups_group (h : IsGroup ends g) (xs : List β) :
    groups ends (g ++ xs) = g :: groups ends xs := by
  rw [groups, split_group h]

/-- A complete group at the front does not change what stands behind the complete groups. -/
theorem rest_group (h : IsGroup ends g) (xs : List β) : rest ends (g ++ xs) = rest ends xs := by
  rw [rest, split_group h]

/-- A string is its complete groups and what stands behind them. Each of the groups is one in the
sense of `IsGroup`, and behind them there is no last element. -/
theorem split_spec (xs : List β) :
    (groups ends xs).flatten ++ rest ends xs = xs ∧ (∀ g ∈ groups ends xs, IsGroup ends g) ∧
      ∀ x ∈ rest ends xs, ends x = false := by
  induction xs with
  | nil =>
    exact ⟨rfl, fun g hg => absurd hg List.not_mem_nil, fun x hx => absurd hx List.not_mem_nil⟩
  | cons x xs ih =>
    obtain ⟨hflatten, hgroups, hrest⟩ := ih
    by_cases hx : ends x = true
    · rw [groups_cons_of_ends hx, rest_cons_of_ends hx]
      refine ⟨congrArg (x :: ·) hflatten, fun g hg => ?_, hrest⟩
      rcases List.mem_cons.mp hg with rfl | hg
      · exact ⟨[], x, rfl, fun y hy => absurd hy List.not_mem_nil, hx⟩
      · exact hgroups g hg
    · have hopen : ends x = false := Bool.eq_false_iff.mpr hx
      rcases hsplit : split ends xs with ⟨gs, r⟩
      simp only [groups, rest, split, if_neg hx, hsplit] at hflatten hgroups hrest ⊢
      -- The segment joins the group that comes first, or the open rest if there is none.
      cases gs with
      | nil =>
        refine ⟨congrArg (x :: ·) hflatten, fun g hg => absurd hg List.not_mem_nil, fun y hy => ?_⟩
        rcases List.mem_cons.mp hy with rfl | hy
        · exact hopen
        · exact hrest y hy
      | cons g gs =>
        refine ⟨congrArg (x :: ·) hflatten, fun g' hg' => ?_, hrest⟩
        rcases List.mem_cons.mp hg' with rfl | hg'
        · obtain ⟨init, y, rfl, hinit, hy⟩ := hgroups g List.mem_cons_self
          refine ⟨x :: init, y, rfl, fun z hz => ?_, hy⟩
          rcases List.mem_cons.mp hz with rfl | hz
          · exact hopen
          · exact hinit z hz
        · exact hgroups g' (List.mem_cons_of_mem _ hg')

/-- The first part of `split_spec`: nothing is lost by the split. -/
theorem flatten_groups (xs : List β) : (groups ends xs).flatten ++ rest ends xs = xs :=
  (split_spec xs).1

/-- The second part of `split_spec`: each of the complete groups ends with its only last element. -/
theorem isGroup_of_mem (h : g ∈ groups ends xs) : IsGroup ends g := (split_spec xs).2.1 g h

/-- The third part of `split_spec`: behind the complete groups there is no last element. -/
theorem rest_open (h : x ∈ rest ends xs) : ends x = false := (split_spec xs).2.2 x h

/-- Complete groups at the front stay, one by one, and what follows them is split by itself. -/
theorem split_flatten (hgs : ∀ g ∈ gs, IsGroup ends g) (xs : List β) :
    groups ends (gs.flatten ++ xs) = gs ++ groups ends xs ∧
      rest ends (gs.flatten ++ xs) = rest ends xs := by
  induction gs with
  | nil => exact ⟨rfl, rfl⟩
  | cons g gs ih =>
    obtain ⟨hgroups, hrest⟩ := ih fun g' hg' => hgs g' (List.mem_cons_of_mem _ hg')
    have hg := hgs g List.mem_cons_self
    rw [List.flatten_cons, List.append_assoc, groups_group hg, rest_group hg, hgroups, hrest]
    exact ⟨rfl, rfl⟩

/-- The groups of two pieces: those of the first, and those of what it leaves with the second behind
it. So a string can be split piece by piece, as it arrives. -/
theorem groups_append (xs ys : List β) :
    groups ends (xs ++ ys) = groups ends xs ++ groups ends (rest ends xs ++ ys) := by
  conv => lhs; rw [← @flatten_groups _ ends xs, List.append_assoc]
  exact (split_flatten (fun g hg => isGroup_of_mem hg) _).1

/-- What stands behind the complete groups can be computed piece by piece: of the first string only
its own rest is needed. -/
theorem rest_append (xs ys : List β) :
    rest ends (xs ++ ys) = rest ends (rest ends xs ++ ys) := by
  conv => lhs; rw [← @flatten_groups _ ends xs, List.append_assoc]
  exact (split_flatten (fun g hg => isGroup_of_mem hg) _).2

/-- The groups of groups that are put together are these groups. -/
theorem groups_flatten (hgs : ∀ g ∈ gs, IsGroup ends g) : groups ends gs.flatten = gs := by
  have h := (split_flatten hgs []).1
  rwa [List.append_nil, groups_nil, List.append_nil] at h

/-- Complete groups put together leave nothing behind them. -/
theorem rest_flatten (hgs : ∀ g ∈ gs, IsGroup ends g) : rest ends gs.flatten = [] := by
  have h := (split_flatten hgs []).2
  rwa [List.append_nil, rest_nil] at h

/-- A string is a complete group if its image under a map is one, for the test that looks through
the map. -/
theorem isGroup_of_map {γ : Type} {f : γ → β} {g : List γ} (h : IsGroup ends (g.map f)) :
    IsGroup (fun x => ends (f x)) g := by
  obtain ⟨init, y, hg, hinit, hy⟩ := h
  obtain ⟨init', last, rfl, rfl, hlast⟩ := List.map_eq_append_iff.mp hg
  obtain ⟨x, rfl, rfl⟩ := List.map_eq_singleton_iff.mp hlast
  exact ⟨init', x, rfl, fun z hz => hinit (f z) (List.mem_map_of_mem hz), hy⟩

/-- The segments of a message are a group, when a segment that is not full counts as a last element.
So the messages of a stream are the groups of its segments. -/
theorem isGroup_lace {α : Type} {n : Nat} (hn : 0 < n) (message : List α) :
    IsGroup (fun b : List α => decide (b.length < n)) (lace n message) := by
  obtain ⟨full, last, hlace, -, hfull, -, hlast⟩ := lace_eq hn message
  refine ⟨full, last, hlace, fun b hb => ?_, decide_eq_true hlast⟩
  rw [decide_eq_false_iff_not, hfull b hb]
  exact Nat.lt_irrefl n

/-- An element belongs to the group that is in progress before it: the index of that group is the
number of the groups that are complete before the element. -/
theorem getElem?_groups (hrest : rest ends (xs ++ x :: ys) = []) :
    ∃ tail, (groups ends (xs ++ x :: ys))[(groups ends xs).length]? =
      some (rest ends xs ++ x :: tail) := by
  rw [rest_append] at hrest
  have hflatten := @flatten_groups _ ends (rest ends xs ++ x :: ys)
  rw [hrest, List.append_nil] at hflatten
  rw [groups_append, List.getElem?_append_right (Nat.le_refl _), Nat.sub_self]
  cases hgroups : groups ends (rest ends xs ++ x :: ys) with
  | nil =>
    rw [hgroups] at hflatten
    exact absurd hflatten.symm (List.append_ne_nil_of_right_ne_nil _ (List.cons_ne_nil x ys))
  | cons g gs =>
    obtain ⟨init, y, hg, -, hy⟩ : IsGroup ends g := by
      refine @isGroup_of_mem _ ends (rest ends xs ++ x :: ys) _ ?_
      rw [hgroups]
      exact List.mem_cons_self
    have hyg : y ∈ g := by
      rw [hg]
      exact List.mem_append_right _ List.mem_cons_self
    -- The last element of the group is not in what is left before the element.
    have hout : y ∉ rest ends xs := by
      intro hmem
      rw [rest_open hmem] at hy
      cases hy
    rw [hgroups, List.flatten_cons] at hflatten
    rcases List.append_eq_append_iff.mp hflatten with ⟨zs, hxs, -⟩ | ⟨zs, hgzs, hys⟩
    · rw [hxs] at hout
      exact absurd (List.mem_append_left _ hyg) hout
    · cases zs with
      | nil =>
        rw [List.append_nil] at hgzs
        rw [hgzs] at hyg
        exact absurd hyg hout
      | cons z tail =>
        obtain ⟨rfl, -⟩ := List.cons.inj hys
        exact ⟨tail, congrArg some hgzs⟩

/-- What stands behind the complete groups has no complete group in it. -/
theorem rest_rest (xs : List β) : rest ends (rest ends xs) = rest ends xs :=
  rest_of_open fun _ hx => rest_open hx

/-- A string has no last element, and then nothing is behind the first group, or its first group
stands at its head, followed by what is behind it. -/
theorem behind_cases (xs : List β) :
    (∀ x ∈ xs, ends x = false) ∧ behind ends xs = [] ∨
      ∃ g, IsGroup ends g ∧ xs = g ++ behind ends xs := by
  induction xs with
  | nil => exact .inl ⟨fun x hx => absurd hx List.not_mem_nil, rfl⟩
  | cons x xs ih =>
    by_cases hx : ends x = true
    · refine .inr ⟨[x], ⟨[], x, rfl, fun y hy => absurd hy List.not_mem_nil, hx⟩, ?_⟩
      rw [behind, if_pos hx]
      rfl
    · rw [behind, if_neg hx]
      rcases ih with ⟨hopen, hbehind⟩ | ⟨g, ⟨init, y, hg, hinit, hy⟩, hxs⟩
      · refine .inl ⟨fun y hy => ?_, hbehind⟩
        rcases List.mem_cons.mp hy with rfl | hy
        · exact Bool.eq_false_iff.mpr hx
        · exact hopen y hy
      · refine .inr ⟨x :: g, ⟨x :: init, y, by rw [hg]; rfl, fun z hz => ?_, hy⟩, ?_⟩
        · rcases List.mem_cons.mp hz with rfl | hz
          · exact Bool.eq_false_iff.mpr hx
          · exact hinit z hz
        · rw [List.cons_append, ← hxs]

/-- A group with a beginning before it is a group, if there is no last element in the beginning. -/
theorem IsGroup.append (hg : IsGroup ends g) (hr : ∀ x ∈ r, ends x = false) :
    IsGroup ends (r ++ g) := by
  obtain ⟨init, x, rfl, hinit, hx⟩ := hg
  refine ⟨r ++ init, x, (List.append_assoc ..).symm, fun y hy => ?_, hx⟩
  rcases List.mem_append.mp hy with hy | hy
  · exact hr y hy
  · exact hinit y hy

/-- What stands behind the last group can be found from any place before its end: only what follows
the last of the last elements matters. -/
theorem rest_append_of_mem (hx : x ∈ ys) (hends : ends x = true) :
    rest ends (xs ++ ys) = rest ends ys := by
  rw [rest_append]
  rcases @behind_cases _ ends ys with ⟨hopen, -⟩ | ⟨g, hg, hys⟩
  · rw [hopen x hx] at hends
    cases hends
  · rw [hys, ← List.append_assoc, rest_group hg, rest_group (hg.append fun y hy => rest_open hy)]

/-- One more element completes the group in progress, or belongs to it. This is one step of a reader
that keeps the group in progress. -/
theorem split_concat (xs : List β) (x : β) :
    groups ends (xs ++ [x]) = groups ends xs ++ (if ends x then [rest ends xs ++ [x]] else []) ∧
      rest ends (xs ++ [x]) = if ends x then [] else rest ends xs ++ [x] := by
  rw [groups_append, rest_append]
  split
  · next hx =>
    have hgroup : IsGroup ends (rest ends xs ++ [x]) :=
      ⟨rest ends xs, x, rfl, fun _ hy => rest_open hy, hx⟩
    have hgroups := groups_group hgroup []
    have hrest := rest_group hgroup []
    rw [List.append_nil] at hgroups hrest
    rw [hgroups, hrest]
    exact ⟨rfl, rfl⟩
  · next hx =>
    have hopen : ∀ y ∈ rest ends xs ++ [x], ends y = false := by
      intro y hy
      rcases List.mem_append.mp hy with hy | hy
      · exact rest_open hy
      · rw [List.mem_singleton.mp hy]
        exact Bool.eq_false_iff.mpr hx
    rw [groups_of_open hopen, rest_of_open hopen]
    exact ⟨rfl, rfl⟩

/-- What is in a complete group was in the string. -/
theorem mem_of_mem_groups (hg : g ∈ groups ends xs) (hx : x ∈ g) : x ∈ xs := by
  rw [← @flatten_groups _ ends xs]
  exact List.mem_append_left _ (List.mem_flatten.mpr ⟨g, hg, hx⟩)

/-- What stands behind the complete groups was in the string. -/
theorem mem_of_mem_rest (hx : x ∈ rest ends xs) : x ∈ xs := by
  rw [← @flatten_groups _ ends xs]
  exact List.mem_append_right _ hx

/-- A function that keeps what is a last element keeps the groups. So the groups can be found from
the sizes of the segments alone. -/
theorem split_map {γ : Type} (f : γ → β) (xs : List γ) :
    split ends (xs.map f) =
      ((groups (fun x => ends (f x)) xs).map (List.map f),
        (rest (fun x => ends (f x)) xs).map f) := by
  induction xs with
  | nil => rfl
  | cons x xs ih =>
    rw [List.map_cons, split, ih]
    by_cases hx : ends (f x) = true
    · rw [if_pos hx, @groups_cons_of_ends _ (fun x => ends (f x)) x hx,
        @rest_cons_of_ends _ (fun x => ends (f x)) x hx]
      rfl
    · rw [if_neg hx]
      rcases hsplit : split (fun x => ends (f x)) xs with ⟨_ | ⟨g, gs⟩, r⟩ <;>
        simp only [groups, rest, split, if_neg hx, hsplit, List.map_nil, List.map_cons]

/-- The split commutes with a map, when the test looks through it. So segments can be split by what
is known of them. -/
theorem groups_map {γ : Type} (f : γ → β) (xs : List γ) :
    groups ends (xs.map f) = (groups (fun x => ends (f x)) xs).map (List.map f) := by
  rw [groups, split_map]

/-- What stands behind the complete groups of an image is the image of what stands there. -/
theorem rest_map {γ : Type} (f : γ → β) (xs : List γ) :
    rest ends (xs.map f) = (rest (fun x => ends (f x)) xs).map f := by
  rw [rest, split_map]

/-- What stands behind the first complete group of an image is the image of what stands there. -/
theorem behind_map {γ : Type} (f : γ → β) (xs : List γ) :
    behind ends (xs.map f) = (behind (fun x => ends (f x)) xs).map f := by
  induction xs with
  | nil => rfl
  | cons x xs ih =>
    rw [List.map_cons, behind, behind, ih]
    split <;> rfl

/-- What stands behind the first complete group was in the string. -/
theorem mem_of_mem_behind (hx : x ∈ behind ends xs) : x ∈ xs := by
  induction xs with
  | nil => exact hx
  | cons y xs ih =>
    rw [behind] at hx
    split at hx
    · exact List.mem_cons_of_mem _ hx
    · exact List.mem_cons_of_mem _ (ih hx)

/-- What stands behind the first complete group is not longer than the string. -/
theorem length_behind_le (xs : List β) : (behind ends xs).length ≤ xs.length := by
  induction xs with
  | nil => exact Nat.le_refl 0
  | cons x xs ih =>
    rw [behind, List.length_cons]
    split
    · exact Nat.le_succ _
    · exact Nat.le_succ_of_le ih

/-- Functions that agree on the string have the same groups. -/
theorem groups_congr {ends' : β → Bool} (h : ∀ x ∈ xs, ends x = ends' x) :
    groups ends xs = groups ends' xs := by
  have hsplit : split ends xs = split ends' xs := by
    induction xs with
    | nil => rfl
    | cons x xs ih =>
      rw [split, split, h x List.mem_cons_self, ih fun y hy => h y (List.mem_cons_of_mem _ hy)]
  rw [groups, hsplit, groups]

/-- The place of a complete group: before it stand the groups before it, and nothing else, and
behind it the rest of the string. -/
theorem exists_of_getElem?_groups {k : Nat} (h : (groups ends xs)[k]? = some g) :
    ∃ front tail, xs = front ++ (g ++ tail) ∧ (groups ends front).length = k ∧
      rest ends front = [] := by
  have hk := (List.getElem?_eq_some_iff.mp h).1
  have hcut : groups ends xs = (groups ends xs).take k ++ g :: (groups ends xs).drop (k + 1) := by
    have hdrop : (groups ends xs).drop k = g :: (groups ends xs).drop (k + 1) := by
      rw [List.drop_eq_getElem_cons hk]
      congr 1
      exact (List.getElem?_eq_some_iff.mp h).2
    rw [← hdrop, List.take_append_drop]
  have hgroups : ∀ g' ∈ (groups ends xs).take k, IsGroup ends g' :=
    fun g' hg' => isGroup_of_mem (List.mem_of_mem_take hg')
  refine ⟨((groups ends xs).take k).flatten,
    ((groups ends xs).drop (k + 1)).flatten ++ rest ends xs, ?_, ?_, rest_flatten hgroups⟩
  · conv => lhs; rw [← @flatten_groups β ends xs, hcut]
    simp only [List.flatten_append, List.flatten_cons, List.append_assoc]
  · rw [groups_flatten hgroups, List.length_take, Nat.min_eq_left (Nat.le_of_lt hk)]

/-- The groups of a string stay when more follows. What is behind them may become complete. -/
theorem getElem?_groups_append {k : Nat} (h : (groups ends xs)[k]? = some g) (ys : List β) :
    (groups ends (xs ++ ys))[k]? = some g := by
  rw [groups_append, List.getElem?_append_left (List.getElem?_eq_some_iff.mp h).1, h]

end

end TSubSpec.Lib.Lacing
