import TSubSpec.Prisma.Highlight

/-!
# `TSubSpec.Prisma.Literal`: an engine for patterns without metacharacters

On a source without metacharacters and without flags, `boost::regex_search` finds the first
occurrence of the source. `literalSearch` does that, so the results about an arbitrary engine can be
run. `quoteTree` is a small language for such runs: its strings are greedy and have an inside
grammar. `charSearch` also knows the dot and the escape, as `charTree` needs them.
-/

set_option autoImplicit false

namespace TSubSpec.Prisma

open TSubSpec.Lib

/-- The offset of the first occurrence of `w`. -/
def findSlice (w : Bytes) : Bytes → Option Nat
  | [] => if w.isEmpty then some 0 else none
  | b :: s => if w.isPrefixOf (b :: s) then some 0 else (findSlice w s).map (· + 1)

/-- The search for a source without metacharacters. -/
def literalSearch : RegexSearch := fun source _ s =>
  (findSlice source s).map fun i => ⟨i, source.length, none⟩

/-- An occurrence lies in the searched text. -/
theorem findSlice_le {w : Bytes} : ∀ {s : Bytes} {i : Nat}, findSlice w s = some i →
    i + w.length ≤ s.length
  | [], i, h => by
    rw [findSlice] at h
    split at h
    · rename_i hw
      cases h
      simp [List.isEmpty_iff.mp hw]
    · cases h
  | b :: s, i, h => by
    rw [findSlice] at h
    split at h
    · rename_i hw
      cases h
      simpa using (List.isPrefixOf_iff_prefix.mp hw).length_le
    · obtain ⟨j, hj, rfl⟩ := Option.map_eq_some_iff.mp h
      have := findSlice_le hj
      simp only [List.length_cons]
      omega

/-- The engine keeps the contract. -/
theorem literalSearch_contract (tree : LanguageTree) : PrismContract literalSearch tree where
  inRange p _ s m h := by
    obtain ⟨i, hi, rfl⟩ := Option.map_eq_some_iff.mp h
    exact findSlice_le hi
  lookbehindPrefix p _ _ s m g h hg := by
    obtain ⟨i, -, rfl⟩ := Option.map_eq_some_iff.mp h
    cases hg

/-- A literal pattern matches where its source is found first, at or behind the position. -/
theorem Pattern.matchText_literal (p : Pattern) (pos : Nat) (s : Bytes) :
    p.matchText literalSearch pos s = (findSlice p.source (s.drop pos)).map fun i =>
      (pos + i, (s.drop (pos + i)).take p.source.length) := by
  unfold Pattern.matchText literalSearch
  cases findSlice p.source (s.drop pos) with
  | none => rfl
  | some i => cases p.lookbehind <;> rfl

/-- A match of a source that is not empty is not empty. -/
theorem Pattern.ne_nil_of_literal {p : Pattern} (hp : p.source ≠ []) {pos i : Nat} {s view : Bytes}
    (h : p.matchText literalSearch pos s = some (i, view)) : view ≠ [] := by
  rw [p.matchText_literal] at h
  obtain ⟨j, hj, heq⟩ := Option.map_eq_some_iff.mp h
  obtain ⟨-, rfl⟩ := Prod.mk.inj heq
  have hle := findSlice_le hj
  have hpos := List.length_pos_iff.mpr hp
  refine List.length_pos_iff.mp ?_
  rw [List.length_drop] at hle
  rw [List.length_take, List.length_drop]
  omega

/-! ### Dots and escapes -/

/-- The length of the match of `w` at the start of `s`, for a source of single characters: a `.`
stands for any byte that ends no line, and a backslash for the character after it. -/
def matchChars : Bytes → Bytes → Option Nat
  | [], _ => some 0
  | 0x5c :: c :: w, b :: s => if c = b then (matchChars w s).map (· + 1) else none
  | 0x2e :: w, b :: s =>
    if b = 0x0a || b = 0x0c || b = 0x0d then none else (matchChars w s).map (· + 1)
  | c :: w, b :: s => if c = b then (matchChars w s).map (· + 1) else none
  | _ :: _, [] => none

/-- The offset and the length of the first match. -/
def findChars (w : Bytes) : Bytes → Option (Nat × Nat)
  | [] => (matchChars w []).map (0, ·)
  | b :: s =>
    match matchChars w (b :: s) with
    | some n => some (0, n)
    | none => (findChars w s).map fun (i, n) => (i + 1, n)

/-- The search for a source of single characters, which `boost::regex` over `char` compares byte
by byte. -/
def charSearch : RegexSearch := fun source _ s =>
  (findChars source s).map fun (i, n) => ⟨i, n, none⟩

/-- A match at the start of a text lies in it, and is not empty when the source is not. -/
theorem matchChars_le {w s : Bytes} {n : Nat} (h : matchChars w s = some n) :
    n ≤ s.length ∧ (w ≠ [] → 0 < n) := by
  fun_induction matchChars w s generalizing n with
  | case1 s =>
    cases h
    exact ⟨Nat.zero_le _, fun hw => absurd rfl hw⟩
  | case2 | case5 | case6 =>
    obtain ⟨m, hm, rfl⟩ := Option.map_eq_some_iff.mp h
    rename_i ih
    have hle := (ih hm).1
    rw [List.length_cons]
    exact ⟨by omega, fun _ => Nat.succ_pos m⟩
  | _ => cases h

/-- A match lies in the searched text, and is not empty when the source is not. -/
theorem findChars_le {w : Bytes} : ∀ {s : Bytes} {i n : Nat}, findChars w s = some (i, n) →
    i + n ≤ s.length ∧ (w ≠ [] → 0 < n)
  | [], i, n, h => by
    obtain ⟨m, hm, heq⟩ := Option.map_eq_some_iff.mp h
    cases heq
    rw [Nat.zero_add]
    exact matchChars_le hm
  | b :: s, i, n, h => by
    rw [findChars] at h
    split at h
    · next m hm =>
      cases h
      rw [Nat.zero_add]
      exact matchChars_le hm
    · obtain ⟨⟨j, m⟩, hrest, heq⟩ := Option.map_eq_some_iff.mp h
      cases heq
      obtain ⟨hle, hpos⟩ := findChars_le hrest
      rw [List.length_cons]
      exact ⟨by omega, hpos⟩

/-- The engine keeps the contract. -/
theorem charSearch_contract (tree : LanguageTree) : PrismContract charSearch tree where
  inRange p _ s m h := by
    obtain ⟨⟨i, n⟩, hi, rfl⟩ := Option.map_eq_some_iff.mp h
    exact (findChars_le hi).1
  lookbehindPrefix p _ _ s m g h hg := by
    obtain ⟨⟨i, n⟩, -, rfl⟩ := Option.map_eq_some_iff.mp h
    cases hg

/-- A match of a source that is not empty is not empty. -/
theorem Pattern.ne_nil_of_chars {p : Pattern} (hp : p.source ≠ []) {i : Nat} {s view : Bytes}
    (h : p.matchText charSearch 0 s = some (i, view)) : view ≠ [] := by
  unfold Pattern.matchText charSearch at h
  cases hfind : findChars p.source (s.drop 0) with
  | none =>
    rw [hfind] at h
    cases h
  | some found =>
    obtain ⟨hle, hpos⟩ := findChars_le hfind
    rw [hfind] at h
    have hview : view = (s.drop (0 + found.1)).take found.2 := by
      cases hlookbehind : p.lookbehind <;> rw [hlookbehind] at h <;> cases h <;> rfl
    have hpos' := hpos hp
    refine List.length_pos_iff.mp ?_
    rw [List.drop_zero] at hle
    rw [hview, List.length_take, List.length_drop]
    omega

/-- A pattern without options. -/
def literal (source : String) : Pattern := ⟨ascii source, ⟨false, false⟩, false, false, [], none⟩

/-- A language with a keyword and with quoted strings, in which the quotes are marked too. -/
def quoteTree : LanguageTree where
  languages := [(ascii "quote", ascii "Quote", 0)]
  grammars := [⟨[⟨ascii "keyword", [0]⟩, ⟨ascii "string", [1]⟩]⟩,
    ⟨[⟨ascii "punctuation", [2]⟩, ⟨ascii "keyword", [0]⟩]⟩]
  patterns := [literal "if", { literal "'if'" with greedy := true, inside := some 1 }, literal "'"]

/-- A language with the character literals of Smalltalk. -/
def charTree : LanguageTree where
  languages := [(ascii "smalltalk", ascii "Smalltalk", 0)]
  grammars := [⟨[⟨ascii "char", [0]⟩]⟩]
  patterns := [{ literal "\\$." with greedy := true }]

/-- The same language without the option. -/
def plainCharTree : LanguageTree := { charTree with patterns := [literal "\\$."] }

end TSubSpec.Prisma
