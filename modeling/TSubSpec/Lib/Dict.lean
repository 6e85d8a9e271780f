import Mathlib.Data.List.AList
import Mathlib.Data.List.Induction

/-!
# `TSubSpec.Lib.Dict`: maps that are visited in any order

A map holds one entry for each key. A loop over it visits every entry once, in an order that is
not defined: an `Iteration` is one such choice for every map.

When a list of entries is inserted from left to right, an entry is lost if a later one has its
key. `entries_insertAll` says that what remains is the unshadowed part of the list.
`uniqueKeysWithValues` takes entries of different keys only, so that none is lost.
-/

set_option autoImplicit false

namespace TSubSpec.Lib

/-- A map. -/
abbrev Dict (K V : Type) := AList fun _ : K => V

/-- A key with its value. -/
abbrev Entry (K V : Type) := Σ _ : K, V

namespace Dict

/-- The orders in which a loop visits the maps. -/
structure Iteration (K V : Type) where
  visit : Dict K V → List (Entry K V)
  perm : ∀ m, (visit m).Perm m.entries

section

variable {K V : Type} [DecidableEq K] {e : Entry K V} {es : List (Entry K V)} {p : Entry K V → Bool}

/-- Inserts the entries from left to right. -/
def insertAll (m : Dict K V) (es : List (Entry K V)) : Dict K V :=
  es.foldl (fun m e => m.insert e.1 e.2) m

/-- The entries that no later entry replaces. -/
def unshadowed : List (Entry K V) → List (Entry K V)
  | [] => []
  | e :: es => if e.1 ∈ es.map Sigma.fst then unshadowed es else e :: unshadowed es

/-- The entries that a later entry replaces. -/
def shadowed : List (Entry K V) → List (Entry K V)
  | [] => []
  | e :: es => if e.1 ∈ es.map Sigma.fst then e :: shadowed es else shadowed es

/-- Every entry is one or the other. -/
theorem unshadowed_append_shadowed :
    ∀ es : List (Entry K V), (unshadowed es ++ shadowed es).Perm es
  | [] => .refl _
  | e :: es => by
    rw [unshadowed, shadowed]
    split
    · exact List.perm_middle.trans ((unshadowed_append_shadowed es).cons e)
    · exact (unshadowed_append_shadowed es).cons e

/-- An entry is kept or replaced by a later one with the same key, and nothing else. -/
theorem mem_iff_shadowed (es : List (Entry K V)) :
    e ∈ es ↔ e ∈ unshadowed es ∨ e ∈ shadowed es := by
  rw [← List.mem_append, (unshadowed_append_shadowed es).mem_iff]

/-- What is counted among all entries is counted among those that are kept and those that are
replaced. -/
theorem countP_eq_shadowed :
    es.countP p = (unshadowed es).countP p + (shadowed es).countP p := by
  rw [← List.countP_append, (unshadowed_append_shadowed es).countP_eq]

/-- Where keys are different, erasing one is filtering it out. -/
theorem kerase_eq_filter {k : K} : ∀ {es : List (Entry K V)}, es.NodupKeys →
    es.kerase k = es.filter fun e => e.1 ≠ k
  | [], _ => rfl
  | e :: es, h => by
    obtain ⟨hnot, hnodup⟩ := List.nodupKeys_cons.mp h
    by_cases hk : k = e.1
    · subst hk
      have hall : ∀ e' ∈ es, decide (e'.1 ≠ e.1) = true := by
        intro e' he'
        have hne : e'.1 ≠ e.1 := fun heq => hnot (heq ▸ List.mem_map_of_mem he')
        exact decide_eq_true hne
      rw [List.kerase_cons_eq rfl, List.filter_cons_of_neg (by simp), List.filter_eq_self.mpr hall]
    · rw [List.kerase_cons_ne hk, kerase_eq_filter hnodup,
        List.filter_cons_of_pos (by simpa using Ne.symm hk)]

/-- The keys after the entries are inserted. -/
theorem mem_insertAll {k : K} (es : List (Entry K V)) (m : Dict K V) :
    k ∈ insertAll m es ↔ k ∈ es.map Sigma.fst ∨ k ∈ m := by
  induction es generalizing m with
  | nil => simp [insertAll]
  | cons e es ih =>
    have hstep : insertAll m (e :: es) = insertAll (m.insert e.1 e.2) es := rfl
    rw [hstep, ih, AList.mem_insert, List.map_cons, List.mem_cons]
    tauto

/-- An entry that is inserted last is what its key looks up. -/
theorem lookup_insertAll_concat (m : Dict K V) (es : List (Entry K V)) (e : Entry K V) :
    (insertAll m (es ++ [e])).lookup e.1 = some e.2 := by
  rw [insertAll, List.foldl_append, List.foldl_cons, List.foldl_nil, AList.lookup_insert]

/-- If entries with the same key have the same value, their order does not matter. -/
theorem lookup_insertAll_iff {k : K} {v : V} (es : List (Entry K V))
    (hagree : ∀ e ∈ es, ∀ e' ∈ es, e.1 = e'.1 → e.2 = e'.2) :
    (insertAll ∅ es).lookup k = some v ↔ (⟨k, v⟩ : Entry K V) ∈ es := by
  induction es using List.reverseRecOn with
  | nil => simp [insertAll]
  | append_singleton es e ih =>
    have hstep : insertAll ∅ (es ++ [e]) = (insertAll ∅ es).insert e.1 e.2 := by
      rw [insertAll, List.foldl_append]
      rfl
    have ih := ih fun e₁ h₁ e₂ h₂ => hagree e₁ (List.mem_append_left _ h₁) e₂
      (List.mem_append_left _ h₂)
    rw [hstep]
    by_cases hk : k = e.1
    · subst hk
      rw [AList.lookup_insert, Option.some.injEq]
      constructor
      · rintro rfl
        exact List.mem_append_right _ List.mem_cons_self
      · intro hmem
        -- An earlier entry with the same key has the same value, so either may count.
        exact hagree e (List.mem_append_right _ List.mem_cons_self) _ hmem rfl
    · have hne : (⟨k, v⟩ : Entry K V) ≠ e := by
        rintro rfl
        exact hk rfl
      rw [AList.lookup_insert_ne hk, ih, List.mem_append, List.mem_singleton, or_iff_left hne]

/-- The order that visits one entry last, and is otherwise the one of `order`. -/
def Iteration.last [DecidableEq V] (order : Iteration K V) (e : Entry K V) : Iteration K V where
  visit m := if e ∈ order.visit m then (order.visit m).erase e ++ [e] else order.visit m
  perm m := by
    split
    · next h =>
      have hfront : ((order.visit m).erase e ++ [e]).Perm (order.visit m) :=
        (List.perm_append_singleton _ _).trans (List.perm_cons_erase h).symm
      exact hfront.trans (order.perm m)
    · exact order.perm m

/-- What is in the map after the entries are inserted: those that are not replaced, and those of
the map whose keys do not occur. -/
theorem entries_insertAll : ∀ (es : List (Entry K V)) (m : Dict K V),
    (insertAll m es).entries.Perm
      (unshadowed es ++ m.entries.filter fun e => e.1 ∉ es.map Sigma.fst)
  | [], m => by
    simp [insertAll, unshadowed]
  | e :: es, m => by
    have ih := entries_insertAll es (m.insert e.1 e.2)
    have hrest : (m.entries.kerase e.1).filter (fun e' => e'.1 ∉ es.map Sigma.fst) =
        m.entries.filter fun e' => e'.1 ∉ (e :: es).map Sigma.fst := by
      rw [kerase_eq_filter m.nodupKeys, List.filter_filter]
      apply List.filter_congr
      intro e' _
      by_cases h : e'.1 = e.1
      · simp [h]
      · simp [h]
    refine ih.trans ?_
    rw [AList.entries_insert, List.filter_cons, hrest, unshadowed]
    by_cases h : e.1 ∈ es.map Sigma.fst
    · simp [h]
    · simp [h]

/-- The entries of a map that is made from a list. -/
theorem entries_insertAll_empty (es : List (Entry K V)) :
    (insertAll ∅ es).entries.Perm (unshadowed es) := by
  simpa using entries_insertAll es ∅

end

/-! ### Unique keys -/

section

variable {K V : Type} {key : V → K} {values : List V} {k : K} {v : V}

/-- The entries of values, by a key that each of them has. -/
def keyedBy (key : V → K) (values : List V) : List (Entry K V) :=
  values.map fun value => ⟨key value, value⟩

/-- The keys of values that are stored by a function are the values of that function, in order. -/
theorem keys_keyedBy (key : V → K) (values : List V) :
    (keyedBy key values).map Sigma.fst = values.map key := by
  simp [keyedBy, Function.comp_def]

/-- An entry among values that are stored by a function: the value is one of them, and the key is
its own. -/
theorem mem_keyedBy : ⟨k, v⟩ ∈ keyedBy key values ↔ v ∈ values ∧ key v = k := by
  simp only [keyedBy, List.mem_map]
  constructor
  · rintro ⟨value, hvalue, heq⟩
    cases heq
    exact ⟨hvalue, rfl⟩
  · rintro ⟨hvalue, rfl⟩
    exact ⟨v, hvalue, rfl⟩

variable [DecidableEq K] {es : List (Entry K V)} {m : Dict K V}

/-- A map of entries whose keys are different. It is an error if they are not. -/
def uniqueKeysWithValues (es : List (Entry K V)) : Option (Dict K V) :=
  if h : (es.map Sigma.fst).Nodup then some ⟨es, h⟩ else none

/-- A map with unique keys can be made exactly if no two entries have the same key. The library
function stops the program otherwise. -/
theorem exists_uniqueKeys_iff :
    (∃ m, uniqueKeysWithValues es = some m) ↔ (es.map Sigma.fst).Nodup := by
  unfold uniqueKeysWithValues
  split <;> simp [*]

/-- The map has the entries that it was made of, in their order. -/
theorem entries_uniqueKeys (h : uniqueKeysWithValues es = some m) : m.entries = es := by
  unfold uniqueKeysWithValues at h
  split at h
  · cases h
    rfl
  · cases h

/-- What is looked up is the value with the key. -/
theorem lookup_keyedBy_iff (h : uniqueKeysWithValues (keyedBy key values) = some m) :
    m.lookup k = some v ↔ v ∈ values ∧ key v = k := by
  rw [← mem_keyedBy, ← entries_uniqueKeys h]
  exact AList.mem_lookup_iff

/-- A key is found if a value has it. -/
theorem isSome_lookup_keyedBy (h : uniqueKeysWithValues (keyedBy key values) = some m) (k : K) :
    (m.lookup k).isSome = decide (k ∈ values.map key) := by
  rw [Bool.eq_iff_iff, Option.isSome_iff_exists, decide_eq_true_iff, List.mem_map]
  simp only [lookup_keyedBy_iff h]

/-- The keys of what is found are the keys that are there, in the same order. -/
theorem map_key_filterMap_lookup (h : uniqueKeysWithValues (keyedBy key values) = some m)
    (ks : List K) :
    (ks.filterMap (m.lookup ·)).map key = ks.filter (· ∈ values.map key) := by
  induction ks with
  | nil => rfl
  | cons k ks ih =>
    have hsome := isSome_lookup_keyedBy h k
    rw [List.filter_cons, ← hsome]
    -- A key is kept on both sides or on none.
    cases hlookup : m.lookup k with
    | none =>
      rw [List.filterMap_cons_none (f := (m.lookup ·)) hlookup]
      exact ih
    | some v =>
      rw [List.filterMap_cons_some (f := (m.lookup ·)) hlookup, List.map_cons, ih,
        ((lookup_keyedBy_iff h).mp hlookup).2]
      rfl

end

end Dict

end TSubSpec.Lib
