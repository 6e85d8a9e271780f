import TSubSpec.Lib.Machine
import TSubSpec.Prisma.Objects

/-!
# `TSubSpec.Prisma.Refinement`: a list is a sequence

After any operations on any lists, every list is the sequence that was built by inserting elements
and deleting them. The invariant is that each object is a well-formed list of its own cells
(`Rep`), and that no two objects share an address. `Invariant.update` is the frame rule for it: an
operation that owns some of the objects leaves the others as they were. Each operation then follows
from what it does to the objects it owns (`Operations.lean`).

`refines_sequences` is the result. It also says that no operation fails, and that a destructor frees
what belongs to its list once.
-/

set_option autoImplicit false

namespace TSubSpec.Prisma

open TSubSpec.Lib

/-! ### Reading a list -/

namespace Rep

variable {h : Heap} {list : TokenList} {cs : List Cell} {q : TokenListPtr}

/-- The addresses of the elements are those of the cells. -/
theorem elements_ptr (cs : List Cell) : (cs.map Cell.element).map Element.ptr = ptrs cs :=
  List.map_map

/-- The tokens of the elements are those of the cells. -/
theorem elements_tok (cs : List Cell) :
    (cs.map Cell.element).map Element.tok = cs.map (·.tok) := List.map_map

/-- A list has fewer nodes than addresses were given out. -/
theorem length_lt_fresh (hr : Rep h list cs) : (ptrs cs).length < h.fresh := by
  refine length_le_of_nodup_of_lt hr.spine.ring.nodup fun q hq => ?_
  exact hr.lt_fresh (List.cons_subset_cons _ (ptrs_subset_area cs) hq)

/-- A well-formed list is the sequence of its cells. -/
theorem represents (hr : Rep h list cs) : Represents h list (cs.map Cell.element) where
  nodes_eq := by
    have hring : Ring h.next h.prev list.head ([] ++ ptrs cs) := hr.spine.ring
    have hnext := hring.next_lastOf
    rw [lastOf_nil] at hnext
    rw [TokenList.nodes, hnext, Option.bind_some, hring.walk_eq hr.length_lt_fresh, elements_ptr]
  length_eq := by rw [hr.length_eq, List.length_map]
  prev_next e he := by
    obtain ⟨c, hc, rfl⟩ := List.mem_map.mp he
    exact hr.spine.ring.next_prev (List.mem_map_of_mem hc)
  holds e he := by
    obtain ⟨c, hc, rfl⟩ := List.mem_map.mp he
    exact ⟨c.payload, c.own, hr.spine.payloads c hc, hr.owns c hc⟩

/-- Only the addresses of a list belong to it. -/
theorem mem_of_belongs {head : TokenListPtr} (hb : Belongs h head q) :
    ∀ {list : TokenList} {cs : List Cell}, list.head = head → Rep h list cs →
      q ∈ list.head :: area cs := by
  induction hb with
  | own linked =>
    -- The sentinel and the nodes are all that can be reached.
    rintro list cs rfl hr
    exact List.cons_subset_cons _ (ptrs_subset_area cs) (hr.spine.ring.linked_iff.mp linked)
  | child linked payload _ ih =>
    -- Only a `Syntax` has children, so the node is a cell, and owns what its children own.
    rintro list cs rfl hr
    rcases List.mem_cons.mp (hr.spine.ring.linked_iff.mp linked) with rfl | hp
    · cases hr.spine.sentinel.symm.trans payload
    · obtain ⟨c, hc, rfl⟩ := List.mem_map.mp hp
      have ho := hr.owns c hc
      rw [Option.some.inj ((hr.spine.payloads c hc).symm.trans payload)] at ho
      obtain ⟨children, hchildren, hown⟩ := ho.children
      refine List.mem_cons_of_mem _ (own_subset_area hc ?_)
      rw [hown]
      exact ih rfl hchildren

end Rep

/-- What a payload owns belongs to its children, by induction on the tree. -/
theorem Owns.belongs {h : Heap} {payload : Payload} {tok : Tok} {own : List TokenListPtr}
    (ho : Owns h payload tok own) : ∀ q ∈ own, ∃ type children aliasName length,
      payload = .syn type children aliasName length ∧ Belongs h children.head q := by
  induction ho with
  | text value => simp
  | @syn type aliasName length children cs spine _ _ ih =>
    intro q hq
    refine ⟨type, children, aliasName, length, rfl, ?_⟩
    rcases List.mem_cons.mp hq with rfl | hq
    · exact .own .head
    · obtain ⟨c, hc, hq⟩ := List.mem_flatMap.mp hq
      have hlinked : Linked h.next children.head c.ptr :=
        spine.ring.linked_iff.mpr (List.mem_cons_of_mem _ (List.mem_map_of_mem hc))
      rcases List.mem_cons.mp hq with rfl | hq
      · exact .own hlinked
      · obtain ⟨_, _, _, _, hpayload, hbelongs⟩ := ih c hc q hq
        exact .child hlinked ((spine.payloads c hc).trans (congrArg some hpayload)) hbelongs

namespace Rep

variable {h : Heap} {list : TokenList} {cs : List Cell} {q : TokenListPtr}

/-- An address belongs to a list exactly if it is the head, a node, or part of a node's children. -/
theorem belongs_iff (hr : Rep h list cs) : Belongs h list.head q ↔ q ∈ list.head :: area cs := by
  constructor
  · intro hb
    exact mem_of_belongs hb rfl hr
  · intro hq
    obtain ⟨_, _, _, _, hpayload, hb⟩ := (hr.syn [] [] 0).belongs q hq
    cases hpayload
    exact hb

/-- A list that represents its cells is freed once: every address of it, and no other. -/
theorem destroyedOnce (hr : Rep h list cs) : DestroyedOnce h list := by
  obtain ⟨h', hrun, hfreed⟩ := hr.destroy_run
  refine ⟨h', list.head :: area cs, hrun, hfreed, hr.spine.nodup, fun q => hr.belongs_iff.symm, ?_⟩
  intro q hq
  obtain ⟨n, hn⟩ := hr.live q hq
  rw [hn]
  rfl

end Rep

/-! ### Places -/

section

variable {cs xs ys zs : List Cell} {place : Option TokenListPtr} {count : Nat}

/-- A place cuts a list into the cells up to it, the `count` cells after it and the rest. -/
theorem exists_cut (h : hasAfter (cs.map Cell.element) place count = true) (list : TokenList) :
    ∃ xs zs ys, cs = xs ++ (zs ++ ys) ∧ Rep.front list xs = list.address place ∧
      xs.length = position (cs.map Cell.element) place ∧ zs.length = count := by
  rw [hasAfter, Bool.and_eq_true, decide_eq_true_iff, List.length_map] at h
  obtain ⟨hplace, hcount⟩ := h
  refine ⟨cs.take (position (cs.map Cell.element) place),
    (cs.drop (position (cs.map Cell.element) place)).take count,
    (cs.drop (position (cs.map Cell.element) place)).drop count, ?_, ?_, ?_, ?_⟩
  · rw [List.take_append_drop, List.take_append_drop]
  · cases place with
    | none => rfl
    | some p =>
      rw [Option.all_some, decide_eq_true_iff, Rep.elements_ptr] at hplace
      have hlt : (cs.map Cell.element).findIdx (·.ptr = p) < cs.length := Nat.lt_of_succ_le
        (Nat.le_trans (Nat.le_add_right _ count) hcount)
      have hlt' : (cs.map Cell.element).findIdx (·.ptr = p) < (cs.map Cell.element).length := by
        rw [List.length_map]
        exact hlt
      -- The cell in front of the cut is the node of the place.
      have hfind := List.findIdx_getElem (w := hlt')
      rw [decide_eq_true_iff, List.getElem_map] at hfind
      rw [position, List.take_succ_eq_append_getElem hlt, Rep.front, ptrs, List.map_append,
        List.map_singleton, lastOf_concat]
      exact hfind
  · rw [List.length_take]
    omega
  · rw [List.length_take, List.length_drop]
    omega

/-- Inserting behind a place is inserting between the cells in front of it and those behind. -/
theorem insertAfter_eq (hxs : xs.length = position ((xs ++ ys).map Cell.element) place)
    (c : Cell) : insertAfter place c.element ((xs ++ ys).map Cell.element) =
      (xs ++ c :: ys).map Cell.element := by
  rw [insertAfter, ← hxs]
  simp

/-- Deleting behind a place is leaving out that many of the cells behind it. -/
theorem deleteAfter_eq (hxs : xs.length = position ((xs ++ (zs ++ ys)).map Cell.element) place) :
    deleteAfter place zs.length ((xs ++ (zs ++ ys)).map Cell.element) =
      (xs ++ ys).map Cell.element := by
  rw [deleteAfter, ← hxs]
  simp [← List.drop_drop]

end

/-! ### The invariant -/

/-- Every object is a well-formed list of cells, which are its sequence, and no two objects share an
address. -/
structure World.Invariant (w : World) : Prop where
  rep : ∀ {x : Nat} {list : TokenList}, w.objects x = some list →
    ∃ cs, Rep w.heap list cs ∧ w.sequences x = some (cs.map Cell.element)
  absent : ∀ {x : Nat}, w.objects x = none → w.sequences x = none
  apart : ∀ {x y : Nat} {lx ly : TokenList} {cx cy : List Cell}, x ≠ y →
    w.objects x = some lx → w.objects y = some ly → Rep w.heap lx cx → Rep w.heap ly cy →
      (lx.head :: area cx).Disjoint (ly.head :: area cy)

namespace World

/-- The address is one of the object `x`. -/
def Has (w : World) (x : Nat) (q : TokenListPtr) : Prop :=
  ∃ list cs, w.objects x = some list ∧ Rep w.heap list cs ∧ q ∈ list.head :: area cs

variable {w w' : World} {x y : Nat} {list : TokenList} {cs : List Cell}

/-- No list is there at the start, so nothing has to agree. -/
theorem invariant_start : start.Invariant where
  rep h := by cases h
  absent _ := rfl
  apart _ h := by cases h

namespace Invariant

variable {F F' : List TokenListPtr} {own : Nat → Prop}

/-- An object that an operation does not own is carried across it. -/
theorem carried (hw : w.Invariant) (hm : Moved w.heap w'.heap F F')
    (hF : ∀ q ∈ F, ∃ x, own x ∧ w.Has x q) (hy : ¬ own y) (hlist : w.objects y = some list) :
    ∃ cs, Rep w.heap list cs ∧ Rep w'.heap list cs ∧
      w.sequences y = some (cs.map Cell.element) ∧ (list.head :: area cs).Disjoint F' := by
  obtain ⟨cs, hr, hseq⟩ := hw.rep hlist
  have hdisj : ∀ q ∈ list.head :: area cs, q ∉ F := by
    intro q hq hqF
    obtain ⟨x, hx, list', cs', hlist', hr', hq'⟩ := hF q hqF
    have hne : y ≠ x := by
      rintro rfl
      exact hy hx
    exact hw.apart hne hlist hlist' hr hr' hq hq'
  exact ⟨cs, hr, hm.rep hr hdisj, hseq, fun q hq hqF => hm.disjoint hr hdisj q hq hqF⟩

/-- An operation that owns some objects, and all addresses of `F`, leaves them as lists within
`F'`. The other objects stay as they were. -/
theorem update (own : Nat → Prop) (hw : w.Invariant) (hm : Moved w.heap w'.heap F F')
    (hF : ∀ q ∈ F, ∃ x, own x ∧ w.Has x q)
    (hkeep : ∀ y, ¬ own y → w'.objects y = w.objects y ∧ w'.sequences y = w.sequences y)
    (hrep : ∀ x list, own x → w'.objects x = some list →
      ∃ cs, Rep w'.heap list cs ∧ w'.sequences x = some (cs.map Cell.element) ∧
        list.head :: area cs ⊆ F')
    (habsent : ∀ x, own x → w'.objects x = none → w'.sequences x = none)
    (hapart : ∀ x y lx ly cx cy, own x → own y → x ≠ y → w'.objects x = some lx →
      w'.objects y = some ly → Rep w'.heap lx cx → Rep w'.heap ly cy →
        (lx.head :: area cx).Disjoint (ly.head :: area cy)) : w'.Invariant where
  rep := by
    intro x list hlist
    by_cases hx : own x
    · obtain ⟨cs, hr, hseq, _⟩ := hrep x list hx hlist
      exact ⟨cs, hr, hseq⟩
    · rw [(hkeep x hx).1] at hlist
      obtain ⟨cs, _, hr, hseq, _⟩ := hw.carried hm hF hx hlist
      exact ⟨cs, hr, (hkeep x hx).2.trans hseq⟩
  absent := by
    intro x hlist
    by_cases hx : own x
    · exact habsent x hx hlist
    · rw [(hkeep x hx).1] at hlist
      exact (hkeep x hx).2.trans (hw.absent hlist)
  apart := by
    intro x y lx ly cx cy hne hlx hly hrx hry
    -- One object that is owned and one that is not: what is owned is within `F'`.
    have hmixed : ∀ {x y : Nat} {lx ly : TokenList} {cx cy : List Cell}, own x → ¬ own y →
        w'.objects x = some lx → w'.objects y = some ly → Rep w'.heap lx cx → Rep w'.heap ly cy →
          (lx.head :: area cx).Disjoint (ly.head :: area cy) := by
      intro x y lx ly cx cy hx hy hlx hly hrx hry
      obtain ⟨cx', hrx', _, hsub⟩ := hrep x lx hx hlx
      rw [(hkeep y hy).1] at hly
      obtain ⟨cy', _, hry', _, hdisj⟩ := hw.carried hm hF hy hly
      obtain rfl := hrx.unique hrx'
      obtain rfl := hry.unique hry'
      exact fun q hq hq' => hdisj hq' (hsub hq)
    by_cases hx : own x <;> by_cases hy : own y
    · exact hapart x y lx ly cx cy hx hy hne hlx hly hrx hry
    · exact hmixed hx hy hlx hly hrx hry
    · exact List.disjoint_symm (hmixed hy hx hly hlx hry hrx)
    · -- Neither is owned: both are what they were, and were apart before.
      rw [(hkeep x hx).1] at hlx
      rw [(hkeep y hy).1] at hly
      obtain ⟨cx', hrx₀, hrx', _⟩ := hw.carried hm hF hx hlx
      obtain ⟨cy', hry₀, hry', _⟩ := hw.carried hm hF hy hly
      obtain rfl := hrx.unique hrx'
      obtain rfl := hry.unique hry'
      exact hw.apart hne hlx hly hrx₀ hry₀

end Invariant

/-! ### One operation -/

/-- Setting an object sets it. -/
@[simp] theorem set_objects_self (seq : Option (List Element)) (list : Option TokenList) :
    (w.set x list seq).objects x = list := Function.update_self ..

/-- Setting an object sets its sequence. -/
@[simp] theorem set_sequences_self (seq : Option (List Element)) (list : Option TokenList) :
    (w.set x list seq).sequences x = seq := Function.update_self ..

/-- Setting an object leaves the others. -/
@[simp] theorem set_objects_of_ne {seq : Option (List Element)} {list : Option TokenList}
    (h : y ≠ x) : (w.set x list seq).objects y = w.objects y := Function.update_of_ne h ..

/-- Setting an object leaves the sequences of the others. -/
@[simp] theorem set_sequences_of_ne {seq : Option (List Element)} {list : Option TokenList}
    (h : y ≠ x) : (w.set x list seq).sequences y = w.sequences y := Function.update_of_ne h ..

/-- What a program returns, if it returns. -/
theorem exec_eq {α : Type} {prog : Prog α} {a : α} {h' : Heap}
    (hrun : (prog.run w.heap).result = .ok (a, h')) :
    w.exec prog = some (a, { w with heap := h' }) := by
  rw [exec, hrun]

namespace Invariant

variable {F F' : List TokenListPtr} {h' : Heap}

/-- An operation that owns one object, and gives it up or leaves it as a list. -/
theorem setOne (hw : w.Invariant) (hm : Moved w.heap h' F F') (hF : ∀ q ∈ F, w.Has x q)
    (object : Option (TokenList × List Cell))
    (hobject : ∀ list cs, object = some (list, cs) → Rep h' list cs ∧ list.head :: area cs ⊆ F') :
    (World.set { w with heap := h' } x (object.map Prod.fst)
      (object.map fun o => o.2.map Cell.element)).Invariant := by
  refine update (· = x) hw hm ?_ ?_ ?_ ?_ ?_
  · intro q hq
    exact ⟨x, rfl, hF q hq⟩
  · intro y hy
    exact ⟨set_objects_of_ne hy, set_sequences_of_ne hy⟩
  · rintro _ list rfl hlist
    rw [set_objects_self] at hlist
    obtain ⟨⟨list', cs⟩, hobj, rfl⟩ := Option.map_eq_some_iff.mp hlist
    obtain ⟨hr, hsub⟩ := hobject list' cs hobj
    refine ⟨cs, hr, ?_, hsub⟩
    rw [set_sequences_self, hobj]
    rfl
  · rintro _ rfl hlist
    rw [set_objects_self, Option.map_eq_none_iff] at hlist
    rw [set_sequences_self, hlist]
    rfl
  · rintro _ _ _ _ _ _ rfl rfl hne
    exact absurd rfl hne

/-- An operation that leaves one object as a list. -/
theorem setList (hw : w.Invariant) (hr : Rep h' list cs)
    (hm : Moved w.heap h' F (list.head :: area cs)) (hF : ∀ q ∈ F, w.Has x q) :
    (World.set { w with heap := h' } x (some list) (some (cs.map Cell.element))).Invariant := by
  refine hw.setOne hm hF (some (list, cs)) ?_
  rintro _ _ ⟨⟩
  exact ⟨hr, List.Subset.refl _⟩

/-- An operation that owns two objects and leaves both as lists, the second one empty. -/
theorem setTwo {lx ly : TokenList} {cx : List Cell} (hw : w.Invariant)
    (hm : Moved w.heap h' F F') (hF : ∀ q ∈ F, w.Has x q ∨ w.Has y q)
    (hne : x ≠ y) (hx : Rep h' lx cx) (hy : Rep h' ly []) (hxF : lx.head :: area cx ⊆ F')
    (hyF : ly.head ∈ F') (hdisj : ly.head ∉ lx.head :: area cx) :
    (World.set (World.set { w with heap := h' } x (some lx) (some (cx.map Cell.element))) y
      (some ly) (some [])).Invariant := by
  refine update (fun z => z = x ∨ z = y) hw hm ?_ ?_ ?_ ?_ ?_
  · intro q hq
    rcases hF q hq with hq | hq
    · exact ⟨x, .inl rfl, hq⟩
    · exact ⟨y, .inr rfl, hq⟩
  · -- The objects other than `x` and `y` are as they were.
    intro z hz
    obtain ⟨hzx, hzy⟩ := not_or.mp hz
    rw [set_objects_of_ne hzy, set_objects_of_ne hzx, set_sequences_of_ne hzy,
      set_sequences_of_ne hzx]
    exact ⟨rfl, rfl⟩
  · rintro z list (rfl | rfl) hlist
    · rw [set_objects_of_ne hne, set_objects_self] at hlist
      obtain rfl := Option.some.inj hlist
      exact ⟨cx, hx, by rw [set_sequences_of_ne hne, set_sequences_self], hxF⟩
    · rw [set_objects_self] at hlist
      obtain rfl := Option.some.inj hlist
      exact ⟨[], hy, by rw [set_sequences_self]; rfl, by simpa using hyF⟩
  · -- Both are lists, so none is moved from.
    rintro z (rfl | rfl) hlist
    · rw [set_objects_of_ne hne, set_objects_self] at hlist
      cases hlist
    · rw [set_objects_self] at hlist
      cases hlist
  · have hapart : ∀ lx' ly' cx' cy', some lx = some lx' → some ly = some ly' →
        Rep h' lx' cx' → Rep h' ly' cy' →
          (lx'.head :: area cx').Disjoint (ly'.head :: area cy') := by
      rintro _ _ cx' cy' ⟨⟩ ⟨⟩ hx' hy'
      obtain rfl := hx.unique hx'
      obtain rfl := hy.unique hy'
      simpa [List.disjoint_cons_right] using hdisj
    rintro z z' lz lz' cz cz' (rfl | rfl) (rfl | rfl) hzz' hlz hlz' hrz hrz'
    · exact absurd rfl hzz'
    · rw [set_objects_of_ne hne, set_objects_self] at hlz
      rw [set_objects_self] at hlz'
      exact hapart _ _ _ _ hlz hlz' hrz hrz'
    · rw [set_objects_self] at hlz
      rw [set_objects_of_ne hne, set_objects_self] at hlz'
      exact List.disjoint_symm (hapart _ _ _ _ hlz' hlz hrz' hrz)
    · exact absurd rfl hzz'

variable {place : Option TokenListPtr}

/-- A place of an object, with `count` nodes behind it. -/
theorem exists_place {count : Nat} (hw : w.Invariant)
    (h : (w.sequences x).any (hasAfter · place count) = true) :
    ∃ list xs zs ys, w.objects x = some list ∧ Rep w.heap list (xs ++ (zs ++ ys)) ∧
      w.sequences x = some ((xs ++ (zs ++ ys)).map Cell.element) ∧
      Rep.front list xs = list.address place ∧
      xs.length = position ((xs ++ (zs ++ ys)).map Cell.element) place ∧ zs.length = count := by
  cases hlist : w.objects x with
  | none =>
    rw [hw.absent hlist] at h
    cases h
  | some list =>
    obtain ⟨cs, hr, hseq⟩ := hw.rep hlist
    rw [hseq, Option.any_some] at h
    obtain ⟨xs, zs, ys, rfl, hfront, hlength, hcount⟩ := exists_cut h list
    exact ⟨list, xs, zs, ys, rfl, hr, hseq, hfront, hlength, hcount⟩

/-- The constructor gives a list of one text node, at addresses that no other list has. -/
theorem construct (hw : w.Invariant) (value : Bytes) :
    ∃ w', step w (.construct x value) = some w' ∧ w'.Invariant := by
  obtain ⟨h', hrun, hr, hm⟩ := Rep.new_run w.heap value
  have hring : Ring h'.next h'.prev w.heap.fresh ([] ++ [w.heap.fresh + 1]) := hr.spine.ring
  have hnext : h'.next w.heap.fresh = some (w.heap.fresh + 1) := hring.next_lastOf
  refine ⟨_, ?_, hw.setList (x := x) hr hm (by simp)⟩
  rw [step, exec_eq (by rw [hrun]; rfl), Option.map_some]
  dsimp only
  rw [hnext]
  rfl

/-- Inserting a text behind a place that the list has keeps the lists apart: the node is new. -/
theorem addAfterText (hw : w.Invariant) (value : Bytes)
    (h : (w.sequences x).any (hasAfter · place 0) = true) :
    ∃ w', step w (.addAfterText x place value) = some w' ∧ w'.Invariant := by
  obtain ⟨list, xs, zs, ys, hlist, hr, hseq, hfront, hlength, -⟩ := hw.exists_place h
  obtain ⟨h', hrun, hr', hm⟩ := hr.addAfterText_run value
  refine ⟨_, ?_, hw.setList (x := x) hr' hm fun q hq => ⟨list, _, hlist, hr, hq⟩⟩
  rw [step, hlist, Option.bind_some, ← hfront, exec_eq (by rw [hrun]; rfl), Option.map_some,
    ← insertAfter_eq hlength]
  dsimp only
  rw [hseq]
  rfl

/-- Inserting a syntax node moves the nodes of the other list into it, and leaves that list without
a sequence. So the two must be different objects. -/
theorem addAfterSyntax (hw : w.Invariant) (type aliasName : Bytes) (textLength : Nat)
    (hne : x ≠ y) (hy : (w.objects y).isSome = true)
    (h : (w.sequences x).any (hasAfter · place 0) = true) :
    ∃ w', step w (.addAfterSyntax x place type y aliasName textLength) = some w' ∧
      w'.Invariant := by
  obtain ⟨list, xs, zs, ys, hlist, hr, hseq, hfront, hlength, -⟩ := hw.exists_place h
  obtain ⟨children, hchildren⟩ := Option.isSome_iff_exists.mp hy
  obtain ⟨cs, hc, hcseq⟩ := hw.rep hchildren
  -- The children are another object, so the list does not own any of their addresses.
  have hdisj := hw.apart hne hlist hchildren hr hc
  obtain ⟨c, movedFrom, h', hrun, -, htok, hr', hfrom, hnot, hm⟩ :=
    hr.addAfterSyntax_run hc (fun q hq hq' => hdisj hq hq') type aliasName textLength
  refine ⟨_, ?_, hw.setTwo (x := x) (y := y) hm ?_ hne hr' hfrom (List.subset_cons_self _ _)
    List.mem_cons_self hnot⟩
  · rw [step, hlist, Option.bind_some, hchildren, Option.bind_some, ← hfront,
      exec_eq (by rw [hrun]; rfl), Option.map_some, ← insertAfter_eq hlength]
    dsimp only
    rw [hseq, hcseq, Option.getD_some, Rep.elements_tok, ← htok]
    rfl
  · intro q hq
    rcases List.mem_append.mp hq with hq | hq
    · exact .inr ⟨children, cs, hchildren, hc, hq⟩
    · exact .inl ⟨list, _, hlist, hr, hq⟩

/-- Removing nodes frees them and their children, and nothing of another list. -/
theorem removeRange {count : Nat} (hw : w.Invariant)
    (h : (w.sequences x).any (hasAfter · place count) = true) :
    ∃ w', step w (.removeRange x place count) = some w' ∧ w'.Invariant := by
  obtain ⟨list, xs, zs, ys, hlist, hr, hseq, hfront, hlength, rfl⟩ := hw.exists_place h
  obtain ⟨h', hrun, hr', hm⟩ := hr.removeRange_run
  refine ⟨_, ?_, hw.setList (x := x) hr' hm fun q hq => ⟨list, _, hlist, hr, hq⟩⟩
  rw [step, hlist, Option.bind_some, ← hfront, exec_eq (by rw [hrun]), Option.map_some,
    ← deleteAfter_eq hlength]
  dsimp only
  rw [hseq]
  rfl

/-- The new object takes the nodes over, and the old one keeps none. -/
theorem moveConstruct (hw : w.Invariant) (hx : (w.objects x).isNone = true)
    (hy : (w.objects y).isSome = true) :
    ∃ w', step w (.moveConstruct x y) = some w' ∧ w'.Invariant := by
  obtain ⟨list, hlist⟩ := Option.isSome_iff_exists.mp hy
  obtain ⟨cs, hr, hseq⟩ := hw.rep hlist
  obtain ⟨h', hrun, hfrom, hm⟩ := Rep.move_run w.heap list
  have hne : x ≠ y := by
    rintro rfl
    rw [hlist] at hx
    cases hx
  -- The nodes are not touched. Only the object that owns them changes.
  have hm' : Moved w.heap h' (list.head :: area cs) (w.heap.fresh :: list.head :: area cs) :=
    hm.mono (List.nil_subset _) fun q hq => by simpa using hq
  refine ⟨_, ?_, hw.setTwo (x := x) (y := y) hm' ?_ hne (hm.rep hr (by simp)) hfrom
    (List.subset_cons_self _ _) List.mem_cons_self hr.fresh_not_mem⟩
  · rw [step, hlist, Option.bind_some, exec_eq (by rw [hrun]; rfl), Option.map_some]
    dsimp only
    rw [hseq]
  · intro q hq
    exact .inr ⟨list, cs, hlist, hr, hq⟩

/-- The destructor frees the list and leaves the others. -/
theorem destroy (hw : w.Invariant) (hx : (w.objects x).isSome = true) :
    ∃ w', step w (.destroy x) = some w' ∧ w'.Invariant := by
  obtain ⟨list, hlist⟩ := Option.isSome_iff_exists.mp hx
  obtain ⟨cs, hr, _⟩ := hw.rep hlist
  obtain ⟨h', hrun, hfreed⟩ := hr.destroy_run
  have hm : Moved w.heap h' (list.head :: area cs) [] :=
    ⟨Nat.le_of_eq hfreed.fresh_eq.symm, fun q _ hq => hfreed.frame q hq, by simp⟩
  refine ⟨_, ?_, hw.setOne (x := x) hm (fun q hq => ⟨list, cs, hlist, hr, hq⟩) none (by simp)⟩
  rw [step, hlist, Option.bind_some, exec_eq (by rw [hrun]; rfl), Option.map_some]
  rfl

/-- Every operation that is allowed succeeds, and keeps the invariant. -/
theorem step (hw : w.Invariant) {op : Operation} (h : allowed w op = true) :
    ∃ w', Prisma.step w op = some w' ∧ w'.Invariant := by
  cases op with
  | construct x value => exact hw.construct value
  | addAfterText x place value => exact hw.addAfterText value h
  | addAfterSyntax x place type children aliasName textLength =>
    simp only [allowed, Bool.and_eq_true, decide_eq_true_eq] at h
    exact hw.addAfterSyntax type aliasName textLength h.1.1 h.1.2 h.2
  | removeRange x place count => exact hw.removeRange h
  | moveConstruct x old =>
    obtain ⟨hx, hold⟩ := Bool.and_eq_true_iff.mp h
    exact hw.moveConstruct hx hold
  | destroy x => exact hw.destroy h

end Invariant

end World

/-- An object is a sequence, or there is no object and no sequence. If it is one, its list
represents the elements of the sequence. -/
def World.Agrees (w : World) (x : Nat) : Prop :=
  match w.objects x, w.sequences x with
  | some list, some seq => Represents w.heap list seq
  | none, none => True
  | _, _ => False

/-- Under the invariant an object is a list of the tokens of its sequence. -/
theorem World.Invariant.agrees {w : World} (hw : w.Invariant) (x : Nat) : w.Agrees x := by
  unfold World.Agrees
  cases hlist : w.objects x with
  | none =>
    rw [hw.absent hlist]
    trivial
  | some list =>
    obtain ⟨cs, hr, hseq⟩ := hw.rep hlist
    rw [hseq]
    exact hr.represents

/-- For every run of operations: each object is the sequence that was built by inserting and
deleting elements, every operation that is allowed succeeds, and a destructor frees what belongs to
its list once. The operations are on any number of objects, whose lists share no node. -/
theorem refines_sequences {w : World}
    (h : Steps step (fun w op => allowed w op = true) .start w) :
    (∀ x, w.Agrees x) ∧ (∀ op, allowed w op = true → ∃ w', step w op = some w') ∧
      ∀ x list, w.objects x = some list → DestroyedOnce w.heap list := by
  have hw : w.Invariant := by
    refine h.invariant (I := World.Invariant) World.invariant_start ?_
    intro w op w' hw hallowed hstep
    obtain ⟨_, hstep', hw'⟩ := hw.step hallowed
    obtain rfl := Option.some.inj (hstep.symm.trans hstep')
    exact hw'
  refine ⟨hw.agrees, ?_, ?_⟩
  · intro op hallowed
    obtain ⟨w', hstep, _⟩ := hw.step hallowed
    exact ⟨w', hstep⟩
  · intro x list hlist
    obtain ⟨cs, hr, _⟩ := hw.rep hlist
    exact hr.destroyedOnce

/-- Two lists, of which the second one becomes the children of a node. The node is removed again,
and the first list is moved. -/
def exampleOperations : List Operation :=
  [.construct 0 (ascii "let x"), .construct 1 (ascii "let"),
    .addAfterSyntax 0 none (ascii "keyword") 1 [] 3, .addAfterText 0 (some 2) (ascii ";"),
    .removeRange 0 none 1, .moveConstruct 2 0, .addAfterText 0 none (ascii "y"), .destroy 1]

/-- A run that constructs a list and moves it to another object. -/
theorem refines_sequences_moved : ∃ w : World, w.objects 2 = some ⟨1, 2⟩ ∧
    (∀ x, w.Agrees x) ∧ (∀ op, allowed w op = true → ∃ w', step w op = some w') ∧
      ∀ x list, w.objects x = some list → DestroyedOnce w.heap list := by
  have hrun : ((runActions (guarded step allowed) .start exampleOperations).bind fun w =>
      w.objects 2) = some ⟨1, 2⟩ := by decide +kernel
  obtain ⟨w, hw, hlist⟩ := Option.bind_eq_some_iff.mp hrun
  exact ⟨w, hlist, refines_sequences (steps_of_runActions (fun _ _ hallowed => hallowed) hw)⟩

end TSubSpec.Prisma
