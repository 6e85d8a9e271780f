import Mathlib.Data.List.DropRight
import TSubSpec.Lib.Decoder
import TSubSpec.Prisma.Layout
import TSubSpec.Prisma.ListSafety

/-!
# `TSubSpec.Prisma.Indices`: the indices in a loaded tree

`records` are the records that a content holds, whether it is well formed or not: `fileRecords`
takes them off its front. What it lacks reads as zeros. Whatever the content, `load` reads inside
of it and stores these records (`decodes_parseTree`). It does not check the indices they hold, so
the tree is `Indexed`, and no look-up leaves a vector, exactly when the indices are `InRange`.
-/

set_option autoImplicit false

namespace TSubSpec.Prisma

open TSubSpec.Lib
open TSubSpec.Lib.Reading
open TSubSpec.Lib.Decoder

/-! ### The records of a content -/

/-- The length in front of a string: one octet, or three behind a marker. -/
def lengthField : Decoder Nat := do
  let length ← number 1
  if 254 ≤ length then
    let a ← number 1
    let b ← number 1
    let c ← number 1
    return a ||| (b <<< 8) ||| (c <<< 16)
  else return length

/-- A string behind its length. -/
def stringField : Decoder Bytes := do
  let length ← lengthField
  match ← takeBytes length with
  | some str => return str
  | none => return List.replicate length 0

/-- A token, with its pattern indices. -/
def tokenRecord : Decoder GrammarToken := do
  let name ← stringField
  let patterns ← listOf (number 1) (number 2)
  return ⟨name, patterns⟩

/-- A grammar. -/
def grammarRecord : Decoder Grammar := do
  let tokens ← listOf (number 1) tokenRecord
  return ⟨tokens⟩

/-- A language: its name, its display name and the index of its grammar. -/
def languageRecord : Decoder (Bytes × Bytes × Nat) := do
  let name ← stringField
  let displayName ← stringField
  let index ← number 2
  return (name, displayName, index)

/-- What a content holds: the items of the patterns, the grammars and the languages, as they are
written. -/
structure FileRecords where
  items : List Bytes
  grammars : List Grammar
  languages : List (Bytes × Bytes × Nat)
  deriving DecidableEq, Repr

/-- The three lists, one after the other, each behind the number of its records. -/
def fileRecords : Decoder FileRecords := do
  let items ← listOf (number 2) stringField
  let grammars ← listOf (number 2) grammarRecord
  let languages ← listOf (number 2) languageRecord
  return ⟨items, grammars, languages⟩

/-- The records of a content. -/
def records (content : Bytes) : FileRecords := (fileRecords content).1

/-- What stands behind the last `c`, or everything when there is none. -/
def behindLast (c : UInt8) (s : Bytes) : Bytes := s.rtakeWhile (· != c)

/-- The digits at the end of an item. -/
def insideDigits (item : Bytes) : Bytes := behindLast 0x2c (behindLast 0x2f item)

/-- The grammar that an item names for the content of its matches: the number at its end. `npos`
names none. -/
def insideOf (item : Bytes) : Option Nat :=
  let inside := decimalValue (insideDigits item) % 2 ^ 64
  if insideDigits item = [] ∨ inside = npos then none else some inside

/-- The items with a `/`. The other ones are passed over. -/
def FileRecords.patterns (r : FileRecords) : List Bytes := r.items.filter (0x2f ∈ ·)

/-- Every index is that of a pattern or a grammar of the content. Of two languages with one name the
first counts. -/
structure FileRecords.InRange (r : FileRecords) : Prop where
  patterns : ∀ g ∈ r.grammars, ∀ t ∈ g.tokens, ∀ i ∈ t.patterns, i < r.patterns.length
  insides : ∀ item ∈ r.patterns, ∀ i, insideOf item = some i → i < r.grammars.length
  languages : ∀ name entry, r.languages.lookup name = some entry → entry.2 < r.grammars.length

/-! ### Numbers and strings -/

/-- The value of some bytes. -/
theorem littleEndian_lt (bs : Bytes) : littleEndian bs < 256 ^ bs.length := by
  induction bs with
  | nil => exact Nat.one_pos
  | cons b bs ih =>
    have hb := b.toNat_lt
    rw [littleEndian, List.length_cons, Nat.pow_succ]
    omega

/-- A number is read as it is decoded, and fits. -/
theorem decodes_number (k : Nat) :
    Decodes (ε := LoadFault) (do
      match ← readBytes k with
      | some value => return littleEndian value
      | none => return 0) (number k) fun c a => c = a ∧ a < 256 ^ k := by
  refine (Decodes.readBytes k).bind ?_
  rintro c _ ⟨rfl, hlength⟩
  cases c with
  | none => exact .pure ⟨rfl, Nat.pow_pos (by decide)⟩
  | some value =>
    refine .pure ⟨rfl, ?_⟩
    rw [← hlength value rfl]
    exact littleEndian_lt value

/-- What is read as one octet is a number below 256. -/
theorem decodes_freadUint8 : Decodes freadUint8 (number 1) fun c a => c = a ∧ a < 256 :=
  decodes_number 1

/-- What is read as two octets is their number. -/
theorem decodes_freadUint16 : Decodes freadUint16 (number 2) Eq :=
  (decodes_number 2).mono fun _ _ h => h.1

/-- What is read as a length is below `2 ^ 24`. -/
theorem decodes_freadLength :
    Decodes freadLength lengthField fun c a => c = a ∧ a < 2 ^ 24 := by
  refine decodes_freadUint8.bind ?_
  rintro length _ ⟨rfl, hlength⟩
  split
  · refine decodes_freadUint8.bind ?_
    rintro a _ ⟨rfl, ha⟩
    refine decodes_freadUint8.bind ?_
    rintro b _ ⟨rfl, hb⟩
    refine decodes_freadUint8.bind ?_
    rintro c _ ⟨rfl, hc⟩
    refine .pure ⟨rfl, ?_⟩
    rw [or_shiftLeft_eq ha hb]
    omega
  · exact .pure ⟨rfl, by omega⟩

/-- A string is read as it is decoded, and its length has three bytes. -/
theorem decodes_freadString :
    Decodes freadString stringField fun c a => c = a ∧ a.length < 2 ^ 24 := by
  refine decodes_freadLength.bind ?_
  rintro length _ ⟨rfl, hlt⟩
  refine (Decodes.readBytes length).bind ?_
  rintro c _ ⟨rfl, hlength⟩
  cases c with
  | none => exact .pure ⟨rfl, by rwa [List.length_replicate]⟩
  | some str => exact .pure ⟨rfl, by rwa [hlength str rfl]⟩

/-- What is read as a string is the string that is there. -/
theorem decodes_freadString_eq : Decodes freadString stringField Eq :=
  decodes_freadString.mono fun _ _ h => h.1

/-! ### Patterns -/

section

variable {c : UInt8} {s : Bytes}

/-- A string with a `c` in it, cut at the last one. -/
theorem exists_append_last (h : c ∈ s) : ∃ xs ys, s = xs ++ c :: ys ∧ c ∉ ys := by
  obtain ⟨as, bs, hs, has⟩ := List.eq_append_cons_of_mem (List.mem_reverse.mpr h)
  refine ⟨bs.reverse, as.reverse, ?_, by simpa using has⟩
  rw [← s.reverse_reverse, hs]
  simp

/-- Behind the last separator comes what has no separator in it. -/
theorem behindLast_append (xs : Bytes) {ys : Bytes} (h : c ∉ ys) :
    behindLast c (xs ++ c :: ys) = ys := by
  have hys : ∀ d ∈ ys.reverse, (d != c) = true := fun d hd =>
    bne_iff_ne.mpr fun he => h (he ▸ List.mem_reverse.mp hd)
  rw [behindLast, List.rtakeWhile, List.reverse_append, List.reverse_cons, List.append_assoc,
    List.takeWhile_append_of_pos hys]
  simp

/-- Without a separator the whole string is behind it. -/
theorem behindLast_of_not_mem (h : c ∉ s) : behindLast c s = s :=
  List.rtakeWhile_eq_self_iff.mpr fun _ hd => bne_iff_ne.mpr fun he => h (he ▸ hd)

/-- A character that is not there is not found from the front. -/
theorem findFirstOf_of_not_mem (h : c ∉ s) : findFirstOf s c = npos := by
  rw [findFirstOf, findIdx?_of_notMem h, Option.getD_none]

/-- A character that is not there is not found from the back. -/
theorem findLastOf_of_not_mem (h : c ∉ s) : findLastOf s c = npos := by
  rw [findLastOf, findIdx?_of_notMem fun hc => h (List.mem_reverse.mp hc)]

/-- A position behind the first `c`, or 0, is not past the end. -/
theorem findFirstOf_add_one_le (hlt : s.length < 2 ^ 24) :
    sizeAdd (findFirstOf s c) 1 ≤ s.length := by
  by_cases h : c ∈ s
  · obtain ⟨xs, ys, rfl, hxs⟩ := List.eq_append_cons_of_mem h
    simp only [List.length_append, List.length_cons] at hlt ⊢
    rw [findFirstOf_append ys hxs, sizeAdd_eq (by omega)]
    omega
  · rw [findFirstOf_of_not_mem h]
    exact Nat.zero_le _

/-- A `substr` that begins inside of the string returns. -/
theorem exists_substr {pos : Nat} (h : pos ≤ s.length) (count : Nat) :
    ∃ t, substr s pos count = .ok t :=
  ⟨_, by rw [substr, substr?_of_le h]; rfl⟩

end

/-- Only digits are read. The induction is on the characters. -/
theorem digit_of_readInside {digits : Bytes} {n inside : Nat}
    (h : readInside digits n = .ok inside) : ∀ d ∈ digits, 0x30 ≤ d ∧ d ≤ 0x39 := by
  induction digits generalizing n with
  | nil => simp
  | cons d digits ih =>
    rw [readInside] at h
    split at h
    · next hd => exact List.forall_mem_cons.mpr ⟨hd, ih h⟩
    · cases h

/-- What is read as the inside index are the digits behind the last comma. -/
theorem parseInside_eq {options : Bytes} (hlt : options.length < 2 ^ 24) :
    parseInside options (findLastOf options 0x2c) =
      if behindLast 0x2c options = [] then .ok npos
      else readInside (behindLast 0x2c options) 0 := by
  by_cases h : 0x2c ∈ options
  · obtain ⟨xs, digits, rfl, hdigits⟩ := exists_append_last h
    rw [List.length_append] at hlt
    rw [findLastOf_append xs hdigits, behindLast_append xs hdigits,
      parseInside_append xs digits (by omega)]
  · -- The position behind `npos` is 0, so all options are read.
    rw [findLastOf_of_not_mem h, behindLast_of_not_mem h, parseInside, ← ite_not]
    exact if_congr (Nat.not_lt.trans (Nat.le_zero.trans List.length_eq_zero_iff)) rfl rfl

/-- The inside index of an item that is accepted. -/
theorem inside_eq {item options : Bytes} {inside : Nat} (hlt : options.length < 2 ^ 24)
    (hoptions : behindLast 0x2f item = options)
    (h : parseInside options (findLastOf options 0x2c) = .ok inside) :
    (if inside ≠ npos then some inside else none) = insideOf item := by
  rw [parseInside_eq hlt] at h
  rw [insideOf, insideDigits, hoptions]
  split at h
  · next hnil =>
    cases h
    rw [if_neg (by simp), if_pos (.inl hnil)]
  · next hne =>
    have hread := readInside_eq (digit_of_readInside h) 0
    rw [Nat.zero_mod, h] at hread
    obtain rfl : inside = decimalValue (behindLast 0x2c options) % 2 ^ 64 := Except.ok.inj hread
    -- Digits that spell `npos` are taken for a missing index.
    by_cases hnpos : decimalValue (behindLast 0x2c options) % 2 ^ 64 = npos
    · rw [if_neg (not_not.mpr hnpos), if_pos (.inr hnpos)]
    · rw [if_pos hnpos, if_neg (not_or.mpr ⟨hne, hnpos⟩)]

section

variable {compiles : Bytes → SyntaxFlags → Bool} {tree tree' : LanguageTree} {item : Bytes}

/-- An item that is accepted becomes a pattern if there is a `/` in it. -/
theorem parsePattern_ok (hlt : item.length < 2 ^ 24)
    (h : parsePattern compiles tree item = .ok tree') :
    if 0x2f ∈ item then
      ∃ p : Pattern, tree' = { tree with patterns := tree.patterns ++ [p] } ∧
        p.inside = insideOf item
    else tree' = tree := by
  by_cases hslash : 0x2f ∈ item
  · rw [if_pos hslash]
    obtain ⟨as, bs, hfirst, has⟩ := List.eq_append_cons_of_mem hslash
    obtain ⟨xs, options, hlast, hoptions⟩ := exists_append_last hslash
    have hbeg : findFirstOf item 0x2f ≠ npos := by
      have := congrArg List.length hfirst
      rw [List.length_append, List.length_cons] at this
      rw [hfirst, findFirstOf_append bs has]
      unfold npos
      omega
    have hlength := congrArg List.length hlast
    rw [List.length_append, List.length_cons] at hlength
    have hstop : findLastOf item 0x2f = xs.length := by rw [hlast, findLastOf_append xs hoptions]
    have hsubstr : substr item (xs.length + 1) npos = .ok options := by
      have hfits : options.length ≤ npos := by unfold npos; omega
      have htail := substr_tail (xs ++ [0x2f]) options hfits
      rwa [List.append_assoc, List.singleton_append, ← hlast, List.length_append] at htail
    -- The parts of an item are substrings from inside it, so only its digits can be rejected.
    obtain ⟨pattern, hpattern⟩ := exists_substr (findFirstOf_add_one_le (c := 0x2f) hlt)
      (sizeSub xs.length (sizeAdd (findFirstOf item 0x2f) 1))
    obtain ⟨aliasName, halias⟩ := exists_substr
      (findFirstOf_add_one_le (c := 0x2c) (s := options) (by omega))
      (sizeSub (findLastOf options 0x2c) (sizeAdd (findFirstOf options 0x2c) 1))
    have hstop' : xs.length ≠ npos := by unfold npos; omega
    simp only [parsePattern, hstop] at h
    rw [if_pos ⟨hbeg, hstop'⟩, hpattern, sizeAdd_eq (by omega), hsubstr] at h
    change (substr options _ _ >>= _) = _ at h
    rw [halias] at h
    change (parseInside options _ >>= _) = _ at h
    cases hinside : parseInside options (findLastOf options 0x2c) with
    | error fault =>
      rw [hinside] at h
      cases h
    | ok inside =>
      rw [hinside] at h
      change (if _ then _ else _ : Except LoadFault LanguageTree) = _ at h
      split at h
      · have hbehind : behindLast 0x2f item = options := by
          rw [hlast, behindLast_append xs hoptions]
        exact ⟨_, (Except.ok.inj h).symm, inside_eq (by omega) hbehind hinside⟩
      · cases h
  · rw [if_neg hslash]
    simp only [parsePattern, findFirstOf_of_not_mem hslash] at h
    exact (Except.ok.inj h).symm

/-! ### What `load` stores -/

/-- The tree grew by the patterns of the items. -/
structure GrownBy (tree : LanguageTree) (items : List Bytes) (tree' : LanguageTree) : Prop where
  insides : tree'.patterns.map (·.inside) =
    tree.patterns.map (·.inside) ++ (items.filter (0x2f ∈ ·)).map insideOf
  grammars : tree'.grammars = tree.grammars
  languages : tree'.languages = tree.languages

/-- A tree to which nothing was added has not grown. -/
theorem GrownBy.refl (tree : LanguageTree) : GrownBy tree [] tree := ⟨by simp, rfl, rfl⟩

/-- One item more. -/
theorem GrownBy.concat {s s' : LanguageTree} {items : List Bytes} (h : GrownBy tree items s)
    (hlt : item.length < 2 ^ 24) (hs : parsePattern compiles s item = .ok s') :
    GrownBy tree (items ++ [item]) s' := by
  have hitem := parsePattern_ok hlt hs
  split at hitem
  · next hslash =>
    obtain ⟨p, rfl, hp⟩ := hitem
    refine ⟨?_, h.grammars, h.languages⟩
    simp [h.insides, hslash, hp]
  · next hslash =>
    subst hitem
    refine ⟨?_, h.grammars, h.languages⟩
    simp [h.insides, hslash]

/-- What is read as patterns is added to the tree, and nothing else of it changes. -/
theorem decodes_parsePatterns (tree : LanguageTree) :
    Decodes (parsePatterns compiles tree) (listOf (number 2) stringField) (GrownBy tree) := by
  refine decodes_freadUint16.seq fun count => ?_
  refine Decodes.repeatM (fun items s h => ?_) count (.refl tree)
  refine decodes_freadString.bind_last ?_
  rintro item _ ⟨rfl, hlt⟩
  exact .lift fun s' hs => h.concat hlt hs

/-- What is read as indices are the numbers that are there. -/
theorem decodes_parseIndices : Decodes parseIndices (listOf (number 1) (number 2)) Eq := by
  refine (decodes_freadUint8.mono fun _ _ h => h.1).seq fun ids => ?_
  refine Decodes.repeatM (I := Eq) (fun rs s h => ?_) ids rfl
  refine decodes_freadUint16.bind_last fun _ path hpath => ?_
  exact .pure (by rw [h, hpath])

/-- What is read as tokens are the records that are there. -/
theorem decodes_parseTokens : Decodes parseTokens (listOf (number 1) tokenRecord) Eq := by
  refine (decodes_freadUint8.mono fun _ _ h => h.1).seq fun keys => ?_
  refine Decodes.repeatM (I := Eq) (fun rs s h => ?_) keys rfl
  refine decodes_freadString_eq.seq fun key => decodes_parseIndices.seq fun indices => ?_
  exact .pure (by rw [h])

/-- What is read as grammars is added to the tree, and nothing else of it changes. -/
theorem decodes_parseGrammars (tree : LanguageTree) :
    Decodes (parseGrammars tree) (listOf (number 2) grammarRecord) fun gs s =>
      s = { tree with grammars := tree.grammars ++ gs } := by
  refine decodes_freadUint16.seq fun count => ?_
  refine Decodes.repeatM (I := fun gs s => s = { tree with grammars := tree.grammars ++ gs })
    (fun gs s h => ?_) count (by rw [List.append_nil])
  refine decodes_parseTokens.seq fun tokens => ?_
  exact .pure (by rw [h, List.append_assoc])

/-- What is read as languages is put into the tree in the order of the content. -/
theorem decodes_parseLanguages (tree : LanguageTree) :
    Decodes (parseLanguages tree) (listOf (number 2) languageRecord) fun ls s =>
      s = ls.foldl LanguageTree.emplace tree := by
  refine decodes_freadUint16.seq fun count => ?_
  refine Decodes.repeatM (I := fun ls s => s = ls.foldl LanguageTree.emplace tree)
    (fun ls s h => ?_) count rfl
  refine decodes_freadString_eq.seq fun name => decodes_freadString_eq.seq fun displayName => ?_
  refine decodes_freadUint16.seq fun index => ?_
  exact .pure (by rw [h, List.foldl_concat])

/-- Putting languages into a tree changes neither its patterns nor its grammars. -/
theorem foldl_emplace_eq (ls : List (Bytes × Bytes × Nat)) (tree : LanguageTree) :
    ls.foldl LanguageTree.emplace tree =
      { tree with languages := (ls.foldl LanguageTree.emplace tree).languages } := by
  induction ls generalizing tree with
  | nil => rfl
  | cons l ls ih =>
    rw [List.foldl_cons, ih]
    unfold LanguageTree.emplace
    split <;> rfl

/-- The first language of a name is kept. The induction is on the languages. -/
theorem mem_foldl_emplace {ls : List (Bytes × Bytes × Nat)} {tree : LanguageTree}
    {l : Bytes × Bytes × Nat} : l ∈ (ls.foldl LanguageTree.emplace tree).languages ↔
      l ∈ tree.languages ∨ tree.languages.lookup l.1 = none ∧ ls.lookup l.1 = some l.2 := by
  induction ls generalizing tree with
  | nil => simp
  | cons k ls ih =>
    rw [List.foldl_cons, ih, LanguageTree.emplace]
    -- `emplace` of `k` matters only for its own name, and there only if the name is new.
    by_cases hk : l.1 = k.1
    · rw [List.lookup_cons, beq_iff_eq.mpr hk, hk]
      cases hold : tree.languages.lookup k.1 with
      | some entry => simp [hold]
      | none =>
        have hself : (tree.languages ++ [k]).lookup k.1 = some k.2 := by
          rw [List.lookup_append, hold, Option.none_or, List.lookup_cons_self]
        simp [hself, Prod.ext_iff, hk, eq_comm]
    · rw [List.lookup_cons, beq_false_of_ne hk]
      have hne : l ≠ k := fun he => hk (congrArg Prod.fst he)
      split
      · rfl
      · have hother : (tree.languages ++ [k]).lookup l.1 = tree.languages.lookup l.1 := by
          rw [List.lookup_append, List.lookup_cons, beq_false_of_ne hk, List.lookup_nil,
            Option.or_none]
        rw [hother, List.mem_append, List.mem_singleton, or_iff_left hne]

/-- The records are in the tree, in the order of the content. -/
structure FileRecords.StoredIn (r : FileRecords) (tree : LanguageTree) : Prop where
  insides : tree.patterns.map (·.inside) = r.patterns.map insideOf
  grammars : tree.grammars = r.grammars
  languages : ∀ l, l ∈ tree.languages ↔ r.languages.lookup l.1 = some l.2

/-- A new tree stores the records of the content. -/
theorem decodes_parseTree :
    Decodes (parseTree compiles ⟨[], [], []⟩) fileRecords FileRecords.StoredIn := by
  refine (decodes_parsePatterns _).bind fun items t hitems => ?_
  refine (decodes_parseGrammars t).bind fun gs t' hgs => ?_
  refine (decodes_parseLanguages t').map fun ls s hs => ?_
  subst hgs
  rw [foldl_emplace_eq] at hs
  subst hs
  refine ⟨hitems.insides, ?_, fun l => ?_⟩
  · simp [hitems.grammars]
  · rw [mem_foldl_emplace]
    simp [hitems.languages]

/-! ### The indices -/

/-- The indices in a tree are those of its records. -/
theorem FileRecords.StoredIn.indexed_iff {r : FileRecords} (h : r.StoredIn tree) :
    tree.Indexed ↔ r.InRange := by
  have hpatterns : tree.patterns.length = r.patterns.length := by
    simpa using congrArg List.length h.insides
  have hinsides : (∀ p ∈ tree.patterns, ∀ i, p.inside = some i → i < tree.grammars.length) ↔
      ∀ item ∈ r.patterns, ∀ i, insideOf item = some i → i < tree.grammars.length := by
    have hmap := List.forall_mem_map (l := tree.patterns) (f := (·.inside))
      (P := fun inside => ∀ i, inside = some i → i < tree.grammars.length)
    rw [← hmap, h.insides, List.forall_mem_map]
  rw [h.grammars] at hinsides
  constructor
  · rintro ⟨hp, hi, hl⟩
    rw [h.grammars, hpatterns] at hp
    rw [h.grammars] at hi hl
    exact ⟨hp, hinsides.mp hi, fun name entry he => hl (name, entry) ((h.languages _).mpr he)⟩
  · rintro ⟨hp, hi, hl⟩
    refine ⟨?_, ?_, ?_⟩
    · rwa [h.grammars, hpatterns]
    · rw [h.grammars]
      exact hinsides.mpr hi
    · rw [h.grammars]
      exact fun l hmem => hl l.1 l.2 ((h.languages l).mp hmem)

/-- Every look-up is inside of its vector, for any language and any text. The source does not
compare an index with the size of the vector. -/
structure LanguageTree.LooksUpInside (tree : LanguageTree) : Prop where
  find : ∀ language, (tree.findIndex language).isSome → (tree.find language).isSome
  tokenize : ∀ (search : RegexSearch) (fuel : Nat) (h : Heap) (text language : Bytes),
    ((tokenizeLanguage search tree fuel text language).run h).result ≠ .error .badIndex

/-- A language of an indexed tree has a grammar, and tokenizing finds every pattern and every inside
grammar. -/
theorem LanguageTree.Indexed.looksUpInside (h : tree.Indexed) : tree.LooksUpInside where
  find language hsome := by
    obtain ⟨index, hindex⟩ := Option.isSome_iff_exists.mp hsome
    obtain ⟨g, hg⟩ := h.resolveLanguage hindex
    rw [LanguageTree.find, hindex, Option.bind_some, hg, Option.isSome_some]
  tokenize search fuel heap text language hbad := by
    have hseq := (tokenizeLanguage_mirrors fuel text language).error_iff.mp hbad
    exact (Seq.tokenizeLanguage_tolerates fuel text language _ hseq).2.2 h rfl

/-! ### Loading -/

/-- The whole of `load` reads inside of the content. Every access that it logs is one of an octet
that is there. -/
def ReadsInside (compiles : Bytes → SyntaxFlags → Bool) (content : Bytes) : Prop :=
  (∃ accesses, Accesses (parseTree compiles ⟨[], [], []⟩) ⟨content, 0⟩ accesses) ∧
    ∀ accesses, Accesses (parseTree compiles ⟨[], [], []⟩) ⟨content, 0⟩ accesses →
      ∀ a ∈ accesses, a.offset + a.length ≤ content.length

/-- Every access of the loading is inside the content, whatever the content is. -/
theorem readsInside (compiles : Bytes → SyntaxFlags → Bool) (content : Bytes) :
    ReadsInside compiles content :=
  ⟨decodes_parseTree.accesses (Nat.zero_le _), fun _ h => h.inside⟩

/-- The records of the content are in the tree that is loaded. -/
theorem storedIn_of_load {content : Bytes} {b : Buffer}
    (h : load compiles ⟨[], [], []⟩ content = .ok (tree, b)) :
    (records content).StoredIn tree :=
  (decodes_parseTree.follows (Nat.zero_le _) h).2.2

end

/-- Nothing is read outside of the content, and nothing is looked up outside of the vectors. This is
what the loaded tree promises to the tokenizer. -/
structure LoadedInside (compiles : Bytes → SyntaxFlags → Bool) (content : Bytes)
    (tree : LanguageTree) : Prop where
  reads : ReadsInside compiles content
  indexed : tree.Indexed
  looksUp : tree.LooksUpInside

/-- For every content that is accepted: its reads are inside, and the look-ups are exactly when its
indices are. The indices are decoded from the content a second time, without the loader. -/
theorem loadedInside_iff {compiles : Bytes → SyntaxFlags → Bool} {content : Bytes}
    {tree : LanguageTree} {b : Buffer} (h : load compiles ⟨[], [], []⟩ content = .ok (tree, b)) :
    LoadedInside compiles content tree ↔ (records content).InRange := by
  rw [← (storedIn_of_load h).indexed_iff]
  exact ⟨fun hinside => hinside.indexed,
    fun hindexed => ⟨readsInside compiles content, hindexed, hindexed.looksUpInside⟩⟩

/-- A file with one pattern, one grammar and one language. -/
def letterFile : Bytes :=
  [1, 0, 5, 0x2f, 0x61, 0x2f, 0x2c, 0x2c, 1, 0, 1, 1, 0x6b, 1, 0, 0, 1, 0, 1, 0x6b, 0, 0, 0]

/-- What is loaded from it. -/
def letterTree : LanguageTree :=
  ⟨[([0x6b], [], 0)], [⟨[⟨[0x6b], [0]⟩]⟩], [⟨[0x61], ⟨false, true⟩, false, false, [], none⟩]⟩

/-- The content of one grammar for a letter, which is loaded and whose indices are all in the
tables. -/
theorem loadedInside_letterFile : LoadedInside (fun _ _ => true) letterFile letterTree := by
  have hload : load (fun _ _ => true) ⟨[], [], []⟩ letterFile
      = .ok (letterTree, ⟨letterFile, 23⟩) := by decide +kernel
  refine (loadedInside_iff hload).mpr ?_
  have hrecords : records letterFile = ⟨[[0x2f, 0x61, 0x2f, 0x2c, 0x2c]], [⟨[⟨[0x6b], [0]⟩]⟩],
      [([0x6b], [], 0)]⟩ := by decide +kernel
  rw [hrecords]
  refine ⟨by decide, ?_, ?_⟩
  · have hnone : ∀ item ∈ [[0x2f, 0x61, 0x2f, 0x2c, 0x2c]], insideOf item = none := by
      decide +kernel
    rintro item hitem i hi
    rw [hnone item hitem] at hi
    cases hi
  · rintro name entry hentry
    obtain ⟨l₁, l₂, hl, -⟩ := List.lookup_eq_some_iff.mp hentry
    have hmem : (name, entry) ∈ l₁ ++ (name, entry) :: l₂ := by simp
    rw [← hl] at hmem
    cases List.mem_singleton.mp hmem
    decide

/-- The same file without its pattern. -/
def patternlessFile : Bytes := [0, 0, 1, 0, 1, 1, 0x6b, 1, 0, 0, 1, 0, 1, 0x6b, 0, 0, 0]

/-- The token of the grammar looks up a pattern that is not there: the index is read, and nothing
compares it with the number of patterns. -/
theorem not_loadedInside :
    ¬ ∀ compiles content tree b, load compiles ⟨[], [], []⟩ content = .ok (tree, b) →
      LoadedInside compiles content tree := by
  intro hall
  have hinside := hall (fun _ _ => true) patternlessFile
    ⟨[([0x6b], [], 0)], [⟨[⟨[0x6b], [0]⟩]⟩], []⟩ ⟨patternlessFile, 17⟩ (by decide +kernel)
  have hbad : (Seq.tokenizeLanguage (fun _ _ _ => none)
      ⟨[([0x6b], [], 0)], [⟨[⟨[0x6b], [0]⟩]⟩], []⟩ 5 [0x61] [0x6b]).result
        = .error .badIndex := by decide +kernel
  exact hinside.looksUp.tokenize _ 5 Heap.empty [0x61] [0x6b]
    ((tokenizeLanguage_mirrors 5 [0x61] [0x6b]).error_iff.mpr hbad)

end TSubSpec.Prisma
