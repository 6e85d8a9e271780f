import TSubSpec.Lib.Reading
import TSubSpec.Prisma.Highlight

/-!
# `TSubSpec.Prisma.LanguageTree`: the loader of `LanguageTree.cpp`

`load` reads the content of a grammar file into a tree. A read past the end of the content leaves
the offset where it is and gives zeros, as the `fread` functions do.

A `size_t` is a number below `2 ^ 64`, and the arithmetic on it wraps. The constructor of
`boost::regex` throws on a source it does not accept: the parameter `compiles` says which it
accepts.
-/

set_option autoImplicit false

namespace TSubSpec.Prisma

open TSubSpec.Lib
open TSubSpec.Lib.Reading

/-- How loading can fail: `assert(false)` in a build with assertions, a `boost::regex_error`, or
`std::out_of_range`. -/
inductive LoadFault where
  | assertion
  | regexError
  | outOfRange
  deriving DecidableEq, Repr

/-! ### Reading the buffer -/

/-- `freadUint8`: the next octet. Behind the end of the content it is zero. -/
def freadUint8 : Reading LoadFault Nat := do
  match ← readBytes 1 with
  | some value => return littleEndian value
  | none => return 0

/-- `freadUint16`, on a little-endian host: the next two octets, copied into a number. -/
def freadUint16 : Reading LoadFault Nat := do
  match ← readBytes 2 with
  | some value => return littleEndian value
  | none => return 0

/-- The length in front of a string: one octet below 254, or three octets behind a larger one. -/
def freadLength : Reading LoadFault Nat := do
  let length ← freadUint8
  if 254 ≤ length then
    let a ← freadUint8
    let b ← freadUint8
    let c ← freadUint8
    return a ||| (b <<< 8) ||| (c <<< 16)
  else return length

/-- `freadString`. A string that is cut off is all zeros. -/
def freadString : Reading LoadFault Bytes := do
  let length ← freadLength
  match ← readBytes length with
  | some str => return str
  | none => return List.replicate length 0

/-! ### Strings -/

/-- `std::string::npos`. -/
def npos : Nat := 2 ^ 64 - 1

/-- `a + b` on `size_t`. -/
def sizeAdd (a b : Nat) : Nat := (a + b) % 2 ^ 64

/-- `a - b` on `size_t`. -/
def sizeSub (a b : Nat) : Nat := (a + 2 ^ 64 - b) % 2 ^ 64

/-- `s.find_first_of(c)`. -/
def findFirstOf (s : Bytes) (c : UInt8) : Nat := (s.findIdx? (· == c)).getD npos

/-- `s.find_last_of(c)`. -/
def findLastOf (s : Bytes) (c : UInt8) : Nat :=
  match s.reverse.findIdx? (· == c) with
  | some i => s.length - 1 - i
  | none => npos

/-- `s.substr(pos, count)`. -/
def substr (s : Bytes) (pos count : Nat) : Except LoadFault Bytes :=
  (substr? s pos count).elim (.error .outOfRange) .ok

/-! ### Patterns -/

/-- The option letters of a pattern. -/
structure PatternOptions where
  lookbehind : Bool
  greedy : Bool
  flags : SyntaxFlags
  deriving DecidableEq, Repr

/-- The options before a letter is read: `ECMAScript | no_mod_m`. -/
def PatternOptions.initial : PatternOptions := ⟨false, false, ⟨false, true⟩⟩

/-- The `switch` over a letter: each of the four letters sets one option, and any other one is
passed over. -/
def PatternOptions.readChar (o : PatternOptions) (c : UInt8) : PatternOptions :=
  if c = 0x6c then { o with lookbehind := true }
  else if c = 0x79 then { o with greedy := true }
  else if c = 0x69 then { o with flags := { o.flags with icase := true } }
  else if c = 0x6d then { o with flags := { o.flags with noModM := false } }
  else o

/-- The loop over the digits of the inside index. -/
def readInside : Bytes → Nat → Except LoadFault Nat
  | [], inside => .ok inside
  | c :: cs, inside =>
    if 0x30 ≤ c ∧ c ≤ 0x39 then readInside cs ((inside * 10 + (c - 0x30).toNat) % 2 ^ 64)
    else .error .assertion

/-- The inside index behind the last comma, or `npos` when nothing stands there. -/
def parseInside (options : Bytes) (aliasEnd : Nat) : Except LoadFault Nat :=
  if sizeAdd aliasEnd 1 < options.length then readInside (options.drop (sizeAdd aliasEnd 1)) 0
  else .ok npos

section

variable (compiles : Bytes → SyntaxFlags → Bool)

/-- The body of the loop of `parsePatterns`, for an item that was read. An item without a `/` is
passed over. -/
def parsePattern (tree : LanguageTree) (value : Bytes) : Except LoadFault LanguageTree := do
  let beg := findFirstOf value 0x2f
  let stop := findLastOf value 0x2f
  if beg ≠ npos ∧ stop ≠ npos then
    let pattern ← substr value (sizeAdd beg 1) (sizeSub stop (sizeAdd beg 1))
    let options ← substr value (sizeAdd stop 1) npos
    let aliasBeg := findFirstOf options 0x2c
    let aliasEnd := findLastOf options 0x2c
    let aliasName ←
      substr options (sizeAdd aliasBeg 1) (sizeSub aliasEnd (sizeAdd aliasBeg 1))
    let inside ← parseInside options aliasEnd
    let o := (options.take aliasBeg).foldl PatternOptions.readChar .initial
    if compiles pattern o.flags then
      let inside := if inside ≠ npos then some inside else none
      return { tree with
        patterns :=
          tree.patterns ++ [⟨pattern, o.flags, o.lookbehind, o.greedy, aliasName, inside⟩] }
    else .error .regexError
  else return tree

/-- `LanguageTree::parsePatterns`: the patterns are read one by one and appended to the tree. An
item without a `/` is passed over. -/
def parsePatterns (tree : LanguageTree) : Reading LoadFault LanguageTree := do
  let count ← freadUint16
  let body tree := do
    let item ← freadString
    StateT.lift (parsePattern compiles tree item)
  repeatM body count tree

/-- The pattern indices of a token: their number in one octet, and then two octets for each. -/
def parseIndices : Reading LoadFault (List Nat) := do
  let ids ← freadUint8
  let body indices := do
    let path ← freadUint16
    return indices ++ [path]
  repeatM body ids []

/-- The tokens of a grammar: their number in one octet, and then each of them. -/
def parseTokens : Reading LoadFault (List GrammarToken) := do
  let keys ← freadUint8
  let body tokens := do
    let key ← freadString
    let indices ← parseIndices
    return tokens ++ [⟨key, indices⟩]
  repeatM body keys []

/-- `LanguageTree::parseGrammars`: the grammars are read one by one and appended to the tree. -/
def parseGrammars (tree : LanguageTree) : Reading LoadFault LanguageTree := do
  let count ← freadUint16
  let body (tree : LanguageTree) := do
    let tokens ← parseTokens
    return { tree with grammars := tree.grammars ++ [⟨tokens⟩] }
  repeatM body count tree

/-- `m_languages.emplace(name, ...)`, which keeps an entry that is there. So the first of two
languages with one name is found. -/
def LanguageTree.emplace (tree : LanguageTree) (l : Bytes × Bytes × Nat) : LanguageTree :=
  if (tree.languages.lookup l.1).isSome then tree
  else { tree with languages := tree.languages ++ [l] }

/-- `LanguageTree::parseLanguages`: the languages are read one by one and put into the map. -/
def parseLanguages (tree : LanguageTree) : Reading LoadFault LanguageTree := do
  let count ← freadUint16
  let body (tree : LanguageTree) := do
    let name ← freadString
    let displayName ← freadString
    let index ← freadUint16
    return tree.emplace (name, displayName, index)
  repeatM body count tree

/-- The body of `LanguageTree::load`: the patterns, the grammars and the languages, in this
order. -/
def parseTree (tree : LanguageTree) : Reading LoadFault LanguageTree := do
  let tree ← parsePatterns compiles tree
  let tree ← parseGrammars tree
  parseLanguages tree

/-- `LanguageTree::load`, with the buffer it leaves. -/
def load (tree : LanguageTree) (content : Bytes) : Except LoadFault (LanguageTree × Buffer) :=
  (parseTree compiles tree).run ⟨content, 0⟩

end

/-- `LanguageTree::find`: the grammar of a language. `none` is the null pointer for a language
that is not there, and an index past the end. -/
def LanguageTree.find (tree : LanguageTree) (key : Bytes) : Option Grammar :=
  (tree.findIndex key).bind tree.resolveGrammar

end TSubSpec.Prisma
