import TSubSpec.Lib.Bytes

/-!
# `TSubSpec.Prisma.Highlight`: patterns, grammars and the loaded tree

The data of `Highlight.h` and `LanguageTree.h`. A `PatternPtr` or `GrammarPtr` of the source
holds the tree and an index into it, so the model stores the index. `resolvePattern` and
`resolveGrammar` return `none` where the source indexes a vector past its end.

`boost::regex_search` is the parameter `RegexSearch`. It sees only the characters between
its two iterators. What the code relies on is `PrismContract`: a match lies in the searched
text, and group 1 of a lookbehind pattern is a prefix of the match.
-/

set_option autoImplicit false

namespace TSubSpec.Prisma

open TSubSpec.Lib

/-- The `syntax_option_type` bits a pattern can change. -/
structure SyntaxFlags where
  icase : Bool
  noModM : Bool
  deriving DecidableEq, Repr

/-- `Pattern`: its regex (source and flags), the two Prism options, the alias, and the
index of the grammar for its content. -/
structure Pattern where
  source : Bytes
  flags : SyntaxFlags
  lookbehind : Bool
  greedy : Bool
  aliasName : Bytes
  inside : Option Nat
  deriving DecidableEq, Repr

/-- `GrammarToken`: a name and the indices of its patterns, which are tried in this order. -/
structure GrammarToken where
  name : Bytes
  patterns : List Nat
  deriving DecidableEq, Repr

/-- `Grammar`: its tokens, which are tried in this order. -/
structure Grammar where
  tokens : List GrammarToken
  deriving DecidableEq, Repr

/-- One turn of the two loops over a grammar: the token, the number `x` of the pattern
within the token, and the pattern's index in the tree. -/
structure Entry where
  token : Bytes
  x : Nat
  pattern : Nat
  deriving DecidableEq, Repr

/-- The turns of a token's inner loop. `x` starts at 0 for each token. -/
def GrammarToken.entries (t : GrammarToken) : List Entry :=
  t.patterns.mapIdx fun x p => ⟨t.name, x, p⟩

/-- The turns of `for (token : tokens) for (j = token.cbegin(); ...)`, in order. -/
def Grammar.entries (g : Grammar) : List Entry := g.tokens.flatMap GrammarToken.entries

/-- `LanguageTree`. `languages` is a map from a name to a display name and a grammar
index. -/
structure LanguageTree where
  languages : List (Bytes × Bytes × Nat)
  grammars : List Grammar
  patterns : List Pattern
  deriving DecidableEq, Repr

/-- `LanguageTree::resolvePattern`: the pattern with this index. There is none behind the end of the
table, where the source's lookup is undefined. -/
def LanguageTree.resolvePattern (tree : LanguageTree) (path : Nat) : Option Pattern :=
  tree.patterns[path]?

/-- `LanguageTree::resolveGrammar`: the grammar with this index, with the same remark. -/
def LanguageTree.resolveGrammar (tree : LanguageTree) (path : Nat) : Option Grammar :=
  tree.grammars[path]?

/-- `Pattern::inside`: the grammar, or `some none` for the null pointer. -/
def LanguageTree.resolveInside (tree : LanguageTree) (p : Pattern) : Option (Option Grammar) :=
  match p.inside with
  | none => some none
  | some path => (tree.resolveGrammar path).map some

/-- The map lookup of `LanguageTree::find`: the grammar index of a language. -/
def LanguageTree.findIndex (tree : LanguageTree) (key : Bytes) : Option Nat :=
  (tree.languages.lookup key).map (·.2)

/-! ### The regex engine -/

/-- What the code reads from a `boost::cmatch`: `m.position()`, `m[0].length()`, and
`m[1].length()` when `m[1].matched`. -/
structure CMatch where
  position : Nat
  length : Nat
  group1 : Option Nat
  deriving DecidableEq, Repr

/-- `boost::regex_search` with the regex compiled from a source and flags, on the given
characters. `none` is no match, or an exception, which `Pattern::match` swallows. -/
abbrev RegexSearch := Bytes → SyntaxFlags → Bytes → Option CMatch

/-- `Pattern::match(success, pos, text)`: the new `pos` and the match, or `none` when
`success` stays `false`. A `pos` past the end makes `text.substr` throw after `success`
was set. The `catch` then returns an empty view, which `take` of `drop` is too. A `group1`
longer than the match wraps the `size_t` difference, and `substr` clamps it. -/
def Pattern.matchText (search : RegexSearch) (p : Pattern) (pos : Nat) (text : Bytes) :
    Option (Nat × Bytes) :=
  match search p.source p.flags (text.drop pos) with
  | none => none
  | some m =>
    match p.lookbehind, m.group1 with
    | true, some lookbehindLength =>
      let start := pos + m.position + lookbehindLength
      let count := if lookbehindLength ≤ m.length then m.length - lookbehindLength
        else text.length
      some (start, (text.drop start).take count)
    | _, _ => some (pos + m.position, (text.drop (pos + m.position)).take m.length)

/-- The documented behaviour of the engine the tokenizer relies on: what it finds is a part of the
text it was given, and what a lookbehind pattern leaves out of it is its beginning. -/
structure PrismContract (search : RegexSearch) (tree : LanguageTree) : Prop where
  /-- A match lies inside the searched characters. -/
  inRange : ∀ p ∈ tree.patterns, ∀ s m, search p.source p.flags s = some m →
    m.position + m.length ≤ s.length
  /-- Group 1 of a lookbehind pattern is a prefix of the match. -/
  lookbehindPrefix : ∀ p ∈ tree.patterns, p.lookbehind = true → ∀ s m g,
    search p.source p.flags s = some m → m.group1 = some g → g ≤ m.length

variable {search : RegexSearch} {tree : LanguageTree} {p : Pattern} {pos i : Nat}
  {text m : Bytes}

/-- The returned view is the text at the returned position. -/
theorem Pattern.matchText_eq (h : p.matchText search pos text = some (i, m)) :
    m = (text.drop i).take m.length := by
  unfold Pattern.matchText at h
  split at h
  · cases h
  · split at h
    · cases h
      simp
    · cases h
      simp

/-- A search never moves backwards. -/
theorem Pattern.le_of_matchText (h : p.matchText search pos text = some (i, m)) : pos ≤ i := by
  unfold Pattern.matchText at h
  split at h
  · cases h
  · split at h
    · cases h; omega
    · cases h; omega

/-- A match that starts inside the text ends inside it. -/
theorem Pattern.matchText_length_le (h : p.matchText search pos text = some (i, m)) :
    m.length ≤ text.length - i := by
  rw [p.matchText_eq h]
  simp only [List.length_take, List.length_drop]
  omega

/-- Under the contract a search from inside the text returns a range of the text. -/
theorem PrismContract.matchText_le (hc : PrismContract search tree) (hp : p ∈ tree.patterns)
    (hpos : pos ≤ text.length) (h : p.matchText search pos text = some (i, m)) :
    i + m.length ≤ text.length := by
  suffices hi : i ≤ text.length by
    have := p.matchText_length_le h
    omega
  unfold Pattern.matchText at h
  split at h
  · cases h
  · rename_i r hr
    have hr' := hc.inRange p hp _ r hr
    simp only [List.length_drop] at hr'
    split at h
    · rename_i g hl hg
      have := hc.lookbehindPrefix p hp hl _ r g hr hg
      cases h
      omega
    · cases h
      omega

end TSubSpec.Prisma
