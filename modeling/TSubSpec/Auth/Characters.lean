import TSubSpec.Auth.Loading

/-!
# `TSubSpec.Auth.Characters`: groups of required characters in one string

`PasswordRequiredCharacters.Decode` reads a list of groups that are separated by `:`. A `:` inside
of a group is written `\:`. The code splits first, and then joins a part that ends in `\` with the
part that follows it, and blanks that part.

`joined` is what the loop makes of the parts, read from the front (`decodeRequiredCharacters_eq`).
A part that was joined is not looked at again. So a group with one `:` comes back, and a group with
two or more keeps a `\` and falls apart: `decodeRequiredCharacters_encode_iff`.
-/

set_option autoImplicit false

namespace TSubSpec.Auth

open TSubSpec.Lib

/-! ### The loop over the parts -/

/-- The groups that the loop leaves, from the parts that it has not looked at yet. The last part
is never joined with a following one. -/
def joined : List Bytes → List Bytes
  | [] => []
  | [part] => if part = [] then [] else [part]
  | part :: following :: rest =>
    if part = [] then joined (following :: rest)
    else if part.getLast? = some 0x5c then
      (part.dropLast ++ ascii ":" ++ following) :: joined rest
    else part :: joined (following :: rest)

/-- A blank part adds nothing. -/
theorem joined_nil_cons (rest : List Bytes) : joined ([] :: rest) = joined rest := by
  cases rest <;> simp [joined]

/-- The loop at a part that ends in `\`. -/
theorem joinEscaped_escaped (front : List Bytes) {part : Bytes} (following : Bytes)
    (rest : List Bytes) (h : part.getLast? = some 0x5c) :
    joinEscaped (front ++ part :: following :: rest) front.length =
      .ok (front ++ (part.dropLast ++ ascii ":" ++ following) :: [] :: rest) := by
  have hne : part ≠ [] := by
    rintro rfl
    cases h
  have hlast : part[part.length - 1]? = some 0x5c := by
    rw [← List.getLast?_eq_getElem?, h]
  simp [joinEscaped, index, hne, hlast]

/-- The loop at another part. -/
theorem joinEscaped_plain (front : List Bytes) {part : Bytes} (following : Bytes)
    (rest : List Bytes) (h : part.getLast? ≠ some 0x5c) :
    joinEscaped (front ++ part :: following :: rest) front.length =
      .ok (front ++ part :: following :: rest) := by
  by_cases hne : part = []
  · simp [joinEscaped, index, hne]
    rfl
  · rw [List.getLast?_eq_getElem?] at h
    obtain ⟨b, hb⟩ := Option.ne_none_iff_exists'.mp
      (List.getLast?_eq_getElem? ▸ mt List.getLast?_eq_none_iff.mp hne)
    have hplain : b ≠ 0x5c := fun he => h (he ▸ hb)
    simp [joinEscaped, index, hne, hb, hplain]
    rfl

/-- The loop from the part behind `front` on leaves what `joined` says. -/
theorem foldlM_joinEscaped_eq (n : Nat) : ∀ (front parts : List Bytes), parts.length = n + 1 →
    ∃ parts', (List.range' front.length n).foldlM joinEscaped (front ++ parts) = .ok parts' ∧
      parts'.filter (· ≠ []) = front.filter (· ≠ []) ++ joined parts := by
  induction n with
  | zero =>
    intro front parts hlength
    obtain ⟨part, rfl⟩ := List.length_eq_one_iff.mp hlength
    refine ⟨front ++ [part], rfl, ?_⟩
    by_cases hpart : part = [] <;> simp [joined, hpart]
  | succ n ih =>
    intro front parts hlength
    obtain ⟨part, following, rest, rfl⟩ :
        ∃ part following rest, parts = part :: following :: rest :=
      match parts, hlength with
      | part :: following :: rest, _ => ⟨part, following, rest, rfl⟩
    rw [List.range'_succ, List.foldlM_cons]
    by_cases hescaped : part.getLast? = some 0x5c
    · have hne : part ≠ [] := by
        rintro rfl
        cases hescaped
      -- The turn joins the two parts and blanks the second, which `joined` has left out already.
      rw [joinEscaped_escaped front following rest hescaped]
      obtain ⟨parts', hfold, hfilter⟩ :=
        ih (front ++ [part.dropLast ++ ascii ":" ++ following]) ([] :: rest)
          (by simpa using hlength)
      refine ⟨parts', by simpa using hfold, ?_⟩
      rw [hfilter, joined_nil_cons]
      simp [joined, hne, hescaped, ascii]
    · rw [joinEscaped_plain front following rest hescaped]
      obtain ⟨parts', hfold, hfilter⟩ := ih (front ++ [part]) (following :: rest)
        (by simpa using hlength)
      refine ⟨parts', by simpa using hfold, ?_⟩
      rw [hfilter]
      by_cases hne : part = [] <;> simp [joined, hne, hescaped]

/-- The whole function, in terms of `joined`. -/
theorem decodeRequiredCharacters_eq (value : Bytes) :
    decodeRequiredCharacters value = .ok (joined (value.splitOn 0x3a)) := by
  have hpos : 0 < (value.splitOn 0x3a).length :=
    List.length_pos_iff.mpr (List.splitOn_ne_nil _ _)
  obtain ⟨parts', hfold, hfilter⟩ := foldlM_joinEscaped_eq ((value.splitOn 0x3a).length - 1) []
    (value.splitOn 0x3a) (by omega)
  rw [List.length_nil, ← List.range_eq_range', List.nil_append] at hfold
  show (List.range _).foldlM joinEscaped (value.splitOn 0x3a) >>= _ = _
  rw [hfold]
  exact congrArg Except.ok hfilter

/-! ### Groups that are written with escapes -/

/-- A group with `\:` for every `:`. -/
def escapeColons (group : Bytes) : Bytes :=
  group.flatMap fun b => if b = 0x3a then [0x5c, 0x3a] else [b]

/-- The groups, escaped and separated by `:`. -/
def encodeRequiredCharacters (groups : List Bytes) : Bytes :=
  [0x3a].intercalate (groups.map escapeColons)

/-- A group without colons is written as it is. -/
theorem escapeColons_of_notMem {group : Bytes} (h : 0x3a ∉ group) : escapeColons group = group := by
  have hsingle : ∀ b ∈ group, (if b = 0x3a then [0x5c, 0x3a] else [b]) = [b] := by
    rintro b hb
    exact if_neg fun he : b = 0x3a => h (he ▸ hb)
  rw [escapeColons, List.flatMap_congr hsingle, List.flatMap_singleton']

/-- The parts of a group, from one `:` to the next. -/
theorem splitOn_escapeColons {p : Bytes} (h : 0x3a ∉ p) (q : Bytes) :
    (escapeColons (p ++ 0x3a :: q)).splitOn 0x3a =
      (p ++ [0x5c]) :: (escapeColons q).splitOn 0x3a := by
  have hescape : escapeColons (p ++ 0x3a :: q) = (p ++ [0x5c]) ++ 0x3a :: escapeColons q := by
    have hp := escapeColons_of_notMem h
    unfold escapeColons at hp ⊢
    rw [List.flatMap_append, hp, List.flatMap_cons]
    simp
  rw [hescape, List.splitOn_append_cons_self, List.splitOn_eq_singleton (by simpa using h)]
  rfl

/-- A group without colons is one part of the string. -/
theorem splitOn_escapeColons_of_notMem {group : Bytes} (h : 0x3a ∉ group) :
    (escapeColons group).splitOn 0x3a = [group] := by
  rw [escapeColons_of_notMem h, List.splitOn_eq_singleton h]

/-- A group has no `:`, or one, or at least two. -/
theorem colons_cases (group : Bytes) :
    0x3a ∉ group ∨ (∃ p q, group = p ++ 0x3a :: q ∧ 0x3a ∉ p ∧ 0x3a ∉ q) ∨
      ∃ p q r, group = p ++ 0x3a :: (q ++ 0x3a :: r) ∧ 0x3a ∉ p ∧ 0x3a ∉ q := by
  by_cases hfirst : 0x3a ∈ group
  · obtain ⟨p, rest, rfl, hp⟩ := List.eq_append_cons_of_mem hfirst
    by_cases hsecond : 0x3a ∈ rest
    · obtain ⟨q, r, rfl, hq⟩ := List.eq_append_cons_of_mem hsecond
      exact .inr (.inr ⟨p, q, r, rfl, hp, hq⟩)
    · exact .inr (.inl ⟨p, rest, rfl, hp, hsecond⟩)
  · exact .inl hfirst

/-- A part that does not end in `\` is a group of its own. -/
theorem joined_cons_plain {part : Bytes} (hne : part ≠ []) (hplain : part.getLast? ≠ some 0x5c)
    (rest : List Bytes) : joined (part :: rest) = part :: joined rest := by
  cases rest <;> simp [joined, hne, hplain]

/-- A part that ends in `\` makes a group with the one behind it. -/
theorem joined_cons_escaped (p following : Bytes) (rest : List Bytes) :
    joined ((p ++ [0x5c]) :: following :: rest) = (p ++ 0x3a :: following) :: joined rest := by
  simp [joined, ascii]

/-- What is decoded from the groups: the parts of the first group, and then the rest. -/
theorem joined_encode_cons (group : Bytes) (groups : List Bytes) :
    ∃ rest, joined rest = joined ((encodeRequiredCharacters groups).splitOn 0x3a) ∧
      (encodeRequiredCharacters (group :: groups)).splitOn 0x3a =
        (escapeColons group).splitOn 0x3a ++ rest := by
  cases groups with
  | nil => exact ⟨[], rfl, by simp [encodeRequiredCharacters]⟩
  | cons next groups =>
    refine ⟨(encodeRequiredCharacters (next :: groups)).splitOn 0x3a, rfl, ?_⟩
    rw [← List.splitOn_append_cons_self]
    simp [encodeRequiredCharacters]

/-- A list of groups comes back exactly when no group has more than one `:`. -/
theorem joined_encode_iff {groups : List Bytes} (hne : ∀ group ∈ groups, group ≠ [])
    (hplain : ∀ group ∈ groups, 0x5c ∉ group) :
    joined ((encodeRequiredCharacters groups).splitOn 0x3a) = groups ↔
      ∀ group ∈ groups, group.count 0x3a ≤ 1 := by
  induction groups with
  | nil => simp [encodeRequiredCharacters, joined]
  | cons group groups ih =>
    obtain ⟨hgroup, hgroups⟩ := List.forall_mem_cons.mp hne
    obtain ⟨hslash, hslashes⟩ := List.forall_mem_cons.mp hplain
    replace ih := ih hgroups hslashes
    obtain ⟨rest, hrest, hsplit⟩ := joined_encode_cons group groups
    rw [hsplit, List.forall_mem_cons]
    rcases colons_cases group with hnone | ⟨p, q, rfl, hp, hq⟩ | ⟨p, q, r, rfl, hp, hq⟩
    · have hlast : group.getLast? ≠ some 0x5c := fun h => hslash (List.mem_of_getLast? h)
      rw [splitOn_escapeColons_of_notMem hnone, List.singleton_append,
        joined_cons_plain hgroup hlast, hrest, List.count_eq_zero_of_not_mem hnone]
      simpa using ih
    · rw [splitOn_escapeColons hp, splitOn_escapeColons_of_notMem hq, List.cons_append,
        List.singleton_append, joined_cons_escaped, hrest]
      simpa [List.count_eq_zero_of_not_mem hp, List.count_eq_zero_of_not_mem hq] using ih
    · -- The second part is not looked at again, so its `\` stays.
      rw [splitOn_escapeColons hp, splitOn_escapeColons hq, List.cons_append, List.cons_append,
        joined_cons_escaped]
      have hhead : p ++ 0x3a :: (q ++ [0x5c]) ≠ p ++ 0x3a :: (q ++ 0x3a :: r) := by simp
      have hcount : ¬ (p ++ 0x3a :: (q ++ 0x3a :: r)).count 0x3a ≤ 1 := by
        simp only [List.count_append, List.count_cons_self]
        omega
      exact iff_of_false (fun h => hhead (List.cons.inj h).1) fun h => hcount h.1

/-- The groups come back from the string exactly when none of them has more than one `:`. No group
is empty or has the escape character in it, which the format cannot write. -/
theorem decodeRequiredCharacters_encode_iff {groups : List Bytes}
    (hne : ∀ group ∈ groups, group ≠ []) (hplain : ∀ group ∈ groups, 0x5c ∉ group) :
    decodeRequiredCharacters (encodeRequiredCharacters groups) = .ok groups ↔
      ∀ group ∈ groups, group.count 0x3a ≤ 1 := by
  rw [decodeRequiredCharacters_eq, Except.ok.injEq]
  exact joined_encode_iff hne hplain

/-- Groups with at most one colon, one of them a colon alone. -/
theorem decodeRequiredCharacters_encode_symbols :
    decodeRequiredCharacters (encodeRequiredCharacters [ascii "abc", ascii "!:?", ascii ":"]) =
      .ok [ascii "abc", ascii "!:?", ascii ":"] :=
  (decodeRequiredCharacters_encode_iff (by decide +kernel) (by decide +kernel)).mpr
    (by decide +kernel)

/-- The group `a:b:c` comes back as `a:b\` and `c`: the part that was joined ends in the escape
character, and it is not looked at again. -/
theorem not_decodeRequiredCharacters_encode :
    ¬ ∀ groups : List Bytes, (∀ group ∈ groups, group ≠ []) → (∀ group ∈ groups, 0x5c ∉ group) →
      decodeRequiredCharacters (encodeRequiredCharacters groups) = .ok groups := by
  intro hall
  have hsame := hall [ascii "a:b:c"] (by decide +kernel) (by decide +kernel)
  have hapart : decodeRequiredCharacters (encodeRequiredCharacters [ascii "a:b:c"]) =
      .ok [[0x61, 0x3a, 0x62, 0x5c], ascii "c"] := by
    rw [decodeRequiredCharacters_eq]
    exact congrArg Except.ok (by decide +kernel)
  rw [hapart] at hsame
  revert hsame
  decide +kernel

end TSubSpec.Auth
