import TSubSpec.Prisma.LanguageTree

/-!
# `TSubSpec.Prisma.Layout`: the layout of a grammar file

`FileLayout ps gs ls content` says that the content is the serialisation of the patterns `ps`, the
grammars `gs` and the languages `ls`. It is put together from the layouts of the records, and each
of these comes with the lemma that the reader of the record consumes it. `load_decodes` puts the
readers together: from a serialisation `load` builds exactly the records, and reads it to its end.
-/

set_option autoImplicit false

namespace TSubSpec.Prisma

open TSubSpec.Lib
open TSubSpec.Lib.Reading

/-! ### Numbers and strings -/

/-- Reading `k` bytes as a number consumes a number that fits. -/
theorem consumes_number {k n : Nat} (h : n < 256 ^ k) :
    Consumes (ε := LoadFault) (do
      match ← readBytes k with
      | some value => return littleEndian value
      | none => return 0) (encodeLE k n) n := by
  have hread := Consumes.readBytes (ε := LoadFault) (encodeLE k n)
  rw [length_encodeLE] at hread
  refine hread.bind_last ?_
  show Consumes (pure (littleEndian (encodeLE k n))) [] n
  rw [littleEndian_encodeLE h]
  exact .pure n

/-- A number of one octet is read back. -/
theorem consumes_freadUint8 {n : Nat} (h : n < 256) : Consumes freadUint8 (encodeLE 1 n) n :=
  consumes_number (k := 1) h

/-- A number of two octets is read back, least octet first. -/
theorem consumes_freadUint16 {n : Nat} (h : n < 2 ^ 16) :
    Consumes freadUint16 (encodeLE 2 n) n :=
  consumes_number (k := 2) h

/-- The length in front of a string: one byte, or a marker and three bytes. -/
inductive LengthLayout : Nat → Bytes → Prop
  | short {length : Nat} (h : length < 254) : LengthLayout length (encodeLE 1 length)
  | long {length marker : Nat} (hm : marker = 254 ∨ marker = 255) (h : length < 2 ^ 24) :
      LengthLayout length (encodeLE 1 marker ++ encodeLE 3 length)

/-- A string with its length in front. It may have any octets in it, as it has no end mark. -/
inductive StringLayout (s : Bytes) : Bytes → Prop
  | mk {lengthBytes : Bytes} (length : LengthLayout s.length lengthBytes) :
      StringLayout s (lengthBytes ++ s)

/-- A length that can be written has at most three octets. -/
theorem LengthLayout.lt {length : Nat} {bs : Bytes} (h : LengthLayout length bs) :
    length < 2 ^ 24 := by
  cases h with
  | short h => omega
  | long hm h => exact h

/-- A length is read back from whichever of its two forms was written. -/
theorem LengthLayout.consumes {length : Nat} {bs : Bytes} (h : LengthLayout length bs) :
    Consumes freadLength bs length := by
  cases h with
  | short h =>
    refine (consumes_freadUint8 (by omega)).bind_last ?_
    rw [if_neg (by omega)]
    exact .pure length
  | @long marker hm h =>
    refine (consumes_freadUint8 (by omega)).bind ?_
    rw [if_pos (by omega)]
    -- The three bytes, the lowest first.
    have hsplit : encodeLE 3 length = encodeLE 1 (length % 256)
        ++ (encodeLE 1 (length / 256 % 256) ++ encodeLE 1 (length / 256 / 256)) := by
      have hmod : ∀ n, UInt8.ofNat (n % 256) = UInt8.ofNat n := fun n => UInt8.ofNat_mod_size
      simp [encodeLE, hmod]
    have hvalue : length % 256 ||| ((length / 256 % 256) <<< 8) ||| ((length / 256 / 256) <<< 16)
        = length := by
      rw [or_shiftLeft_eq (by omega) (by omega)]
      omega
    rw [hsplit]
    refine (consumes_freadUint8 (by omega)).bind ?_
    refine (consumes_freadUint8 (by omega)).bind ?_
    refine (consumes_freadUint8 (by omega)).bind_last ?_
    rw [hvalue]
    exact .pure length

/-- The length of a string that can be written has at most three octets. -/
theorem StringLayout.lt {s bs : Bytes} (h : StringLayout s bs) : s.length < 2 ^ 24 := by
  cases h with
  | mk length => exact length.lt

/-- A string is read back, its length first. -/
theorem StringLayout.consumes {s bs : Bytes} (h : StringLayout s bs) :
    Consumes freadString bs s := by
  cases h with
  | mk length =>
    refine length.consumes.bind ?_
    refine (Consumes.readBytes s).bind_last ?_
    exact Consumes.pure s

/-! ### The text of a pattern -/

/-- What is written for a pattern: the source, the option letters, the alias, and the number of the
grammar for the content. -/
structure PatternRecord where
  source : Bytes
  flags : Bytes
  aliasName : Bytes
  inside : Option Nat
  deriving DecidableEq, Repr

/-- The pattern the record stands for: `l`, `y` and `i` switch an option on, `m` makes `^` and `$`
match at line ends. -/
def PatternRecord.pattern (r : PatternRecord) : Pattern where
  source := r.source
  flags := ⟨r.flags.contains 0x69, !r.flags.contains 0x6d⟩
  lookbehind := r.flags.contains 0x6c
  greedy := r.flags.contains 0x79
  aliasName := r.aliasName
  inside := r.inside

/-- The value of some decimal digits. -/
def decimalValue (digits : Bytes) : Nat :=
  digits.foldl (fun n d => n * 10 + (d - 0x30).toNat) 0

/-- A number in decimal, or nothing. -/
inductive InsideLayout : Option Nat → Bytes → Prop
  | absent : InsideLayout none []
  | decimal {digits : Bytes} (ne : digits ≠ []) (digit : ∀ d ∈ digits, 0x30 ≤ d ∧ d ≤ 0x39)
      (lt : decimalValue digits < 2 ^ 16) : InsideLayout (some (decimalValue digits)) digits

/-- The text of a pattern: `/source/flags,alias,inside`. The source may have slashes in it, and the
alias commas, because both are cut from the end. -/
inductive ItemLayout (r : PatternRecord) : Bytes → Prop
  | mk {digits : Bytes} (flags : ∀ c ∈ r.flags, c ∈ [0x6c, 0x79, 0x69, 0x6d])
      (aliasName : 0x2f ∉ r.aliasName) (inside : InsideLayout r.inside digits) :
      ItemLayout r (0x2f :: (r.source ++ 0x2f :: (r.flags ++ 0x2c :: (r.aliasName ++
        0x2c :: digits))))

section

variable {c : UInt8}

/-- A character that is not there is not found. -/
theorem findIdx?_of_notMem {s : Bytes} (h : c ∉ s) : s.findIdx? (· == c) = none := by
  refine List.findIdx?_eq_none_iff.mpr fun d hd => ?_
  exact beq_false_of_ne fun he => h (he ▸ hd)

/-- The first occurrence of a character that does not occur before it. -/
theorem findFirstOf_append {xs : Bytes} (ys : Bytes) (h : c ∉ xs) :
    findFirstOf (xs ++ c :: ys) c = xs.length := by
  rw [findFirstOf, List.findIdx?_append, findIdx?_of_notMem h, List.findIdx?_cons]
  simp

/-- The last occurrence of a character that does not occur after it. -/
theorem findLastOf_append (xs : Bytes) {ys : Bytes} (h : c ∉ ys) :
    findLastOf (xs ++ c :: ys) c = xs.length := by
  have hnone := findIdx?_of_notMem fun hc => h (List.mem_reverse.mp hc)
  have hsome : (xs ++ c :: ys).reverse.findIdx? (· == c) = some ys.length := by
    rw [List.reverse_append, List.reverse_cons, List.append_assoc, List.findIdx?_append, hnone,
      List.singleton_append, List.findIdx?_cons]
    simp
  rw [findLastOf, hsome]
  simp only [List.length_append, List.length_cons]
  omega

end

/-- A substring between two positions. -/
theorem substr_middle (xs ys zs : Bytes) :
    substr (xs ++ (ys ++ zs)) xs.length ys.length = .ok ys := by
  rw [substr, substr?_of_le (by simp), List.drop_left, List.take_left]
  rfl

/-- A substring from a position on. -/
theorem substr_tail (xs ys : Bytes) {count : Nat} (h : ys.length ≤ count) :
    substr (xs ++ ys) xs.length count = .ok ys := by
  rw [substr, substr?_of_le (by simp), List.drop_left, List.take_of_length_le h]
  rfl

/-- A sum that fits into a `size_t` does not wrap. -/
theorem sizeAdd_eq {a b : Nat} (h : a + b < 2 ^ 64) : sizeAdd a b = a + b := Nat.mod_eq_of_lt h

/-- A difference of two lengths does not wrap if the second is not larger. -/
theorem sizeSub_eq {a b : Nat} (h : a < 2 ^ 64) (hle : b ≤ a) : sizeSub a b = a - b := by
  unfold sizeSub
  omega

/-- The digits are read as their value. The induction is on the digits. -/
theorem readInside_eq {digits : Bytes} (h : ∀ d ∈ digits, 0x30 ≤ d ∧ d ≤ 0x39) (n : Nat) :
    readInside digits (n % 2 ^ 64)
      = .ok (digits.foldl (fun n d => n * 10 + (d - 0x30).toNat) n % 2 ^ 64) := by
  induction digits generalizing n with
  | nil => rfl
  | cons d digits ih =>
    have hstep : (n % 2 ^ 64 * 10 + (d - 0x30).toNat) % 2 ^ 64
        = (n * 10 + (d - 0x30).toNat) % 2 ^ 64 := by omega
    rw [readInside, if_pos (h d List.mem_cons_self), hstep,
      ih fun d hd => h d (List.mem_cons_of_mem _ hd)]
    rfl

/-- The letters set their options. The induction is on the letters. -/
theorem foldl_readChar {flags : Bytes} (h : ∀ c ∈ flags, c ∈ [0x6c, 0x79, 0x69, 0x6d])
    (o : PatternOptions) : flags.foldl PatternOptions.readChar o
      = ⟨o.lookbehind || flags.contains 0x6c, o.greedy || flags.contains 0x79,
        ⟨o.flags.icase || flags.contains 0x69, o.flags.noModM && !flags.contains 0x6d⟩⟩ := by
  induction flags generalizing o with
  | nil => simp
  | cons c flags ih =>
    rw [List.foldl_cons, ih fun c hc => h c (List.mem_cons_of_mem _ hc)]
    have hc := h c List.mem_cons_self
    simp only [List.mem_cons, List.not_mem_nil, or_false] at hc
    rcases hc with rfl | rfl | rfl | rfl <;> simp [PatternOptions.readChar]

/-- The inside index stands behind the last comma. -/
theorem parseInside_append (xs digits : Bytes) (hxs : xs.length < 2 ^ 24) :
    parseInside (xs ++ 0x2c :: digits) xs.length =
      if digits = [] then .ok npos else readInside digits 0 := by
  have hdrop : (xs ++ 0x2c :: digits).drop (xs.length + 1) = digits := by
    rw [← List.drop_drop, List.drop_left, List.drop_one, List.tail_cons]
  rw [parseInside, sizeAdd_eq (by omega), hdrop, ← ite_not]
  refine if_congr ?_ rfl rfl
  rw [← List.length_eq_zero_iff, List.length_append, List.length_cons]
  omega

/-- What the loader reads behind the last comma. -/
theorem InsideLayout.read {inside : Option Nat} {digits : Bytes} (h : InsideLayout inside digits)
    (xs : Bytes) (hxs : xs.length < 2 ^ 24) :
    ∃ n, parseInside (xs ++ 0x2c :: digits) xs.length = .ok n ∧
      (if n ≠ npos then some n else none) = inside := by
  rw [parseInside_append xs digits hxs]
  cases h with
  | absent => exact ⟨npos, if_pos rfl, rfl⟩
  | decimal ne digit lt =>
    refine ⟨decimalValue digits, (if_neg ne).trans ?_, if_pos ?_⟩
    · have hread := readInside_eq digit 0
      rwa [← decimalValue, Nat.mod_eq_of_lt (show decimalValue digits < 2 ^ 64 by omega)] at hread
    · unfold npos
      omega

/-- The inside grammar is written in digits, so the separators are not among its characters. -/
theorem InsideLayout.digit {inside : Option Nat} {digits : Bytes} (h : InsideLayout inside digits) :
    ∀ d ∈ digits, 0x30 ≤ d ∧ d ≤ 0x39 := by
  cases h with
  | absent => simp
  | decimal ne digit lt => exact digit

variable {compiles : Bytes → SyntaxFlags → Bool} {r : PatternRecord}

/-- The text of a pattern becomes the last pattern of the tree. -/
theorem parsePattern_eq {item : Bytes} (h : ItemLayout r item) (hlt : item.length < 2 ^ 24)
    (accepts : compiles r.source r.pattern.flags = true) (tree : LanguageTree) :
    parsePattern compiles tree item =
      .ok { tree with patterns := tree.patterns ++ [r.pattern] } := by
  cases h with
  | @mk digits flags aliasName inside =>
    have hdigits := inside.digit
    -- The last `/` is the one before the options, and their commas are the first and the last.
    have hfirst : (0x2c : UInt8) ∉ r.flags := fun hc => by simpa using flags _ hc
    have hlast : (0x2c : UInt8) ∉ digits := fun hc => by simpa using hdigits _ hc
    have hslash : (0x2f : UInt8) ∉ r.flags ++ 0x2c :: (r.aliasName ++ 0x2c :: digits) := by
      intro hc
      simp only [List.mem_append, List.mem_cons] at hc
      rcases hc with hc | hc | hc | hc | hc
      · simpa using flags _ hc
      · cases hc
      · exact aliasName hc
      · cases hc
      · simpa using hdigits _ hc
    simp only [List.length_cons, List.length_append] at hlt
    have hbound : ∀ k, k < 2 ^ 24 → k ≠ npos := fun k hk => by unfold npos; omega
    -- The two slashes, and what stands between and behind them.
    have hbeg := findFirstOf_append
      (r.source ++ 0x2f :: (r.flags ++ 0x2c :: (r.aliasName ++ 0x2c :: digits)))
      (List.not_mem_nil (a := 0x2f))
    have hstop := findLastOf_append (0x2f :: r.source) hslash
    have hpattern := substr_middle [0x2f] r.source
      (0x2f :: (r.flags ++ 0x2c :: (r.aliasName ++ 0x2c :: digits)))
    have hfits : (r.flags ++ 0x2c :: (r.aliasName ++ 0x2c :: digits)).length ≤ npos := by
      simp only [List.length_cons, List.length_append]
      unfold npos
      omega
    have hoptions := substr_tail (0x2f :: (r.source ++ [0x2f])) _ hfits
    -- The two commas, and what stands before, between and behind them.
    have haliasBeg := findFirstOf_append (r.aliasName ++ 0x2c :: digits) hfirst
    have haliasEnd := findLastOf_append (r.flags ++ 0x2c :: r.aliasName) hlast
    have halias := substr_middle (r.flags ++ [0x2c]) r.aliasName (0x2c :: digits)
    obtain ⟨n, hread, hinside⟩ := inside.read (r.flags ++ 0x2c :: r.aliasName) (by
      simp only [List.length_cons, List.length_append]
      omega)
    have hletters := foldl_readChar flags .initial
    simp only [List.nil_append, List.append_assoc, List.cons_append, List.length_cons,
      List.length_append, List.length_nil, Nat.zero_add] at *
    simp only [parsePattern, hbeg, hstop]
    rw [if_pos ⟨hbound 0 (by omega), hbound _ (by omega)⟩, sizeAdd_eq (by omega),
      sizeSub_eq (by omega) (by omega), sizeAdd_eq (by omega), Nat.zero_add, Nat.add_sub_cancel,
      hpattern, hoptions]
    show (do
      let aliasName ← substr (r.flags ++ 0x2c :: (r.aliasName ++ 0x2c :: digits)) _ _
      _) = _
    have hcount : r.flags.length + (r.aliasName.length + 1) - (r.flags.length + 1)
        = r.aliasName.length := by omega
    rw [haliasBeg, haliasEnd, sizeAdd_eq (by omega), sizeSub_eq (by omega) (by omega), hcount,
      halias, hread, List.take_left, hletters]
    show (if compiles r.source r.pattern.flags = true then _ else _ : Except LoadFault _) = _
    rw [if_pos accepts, hinside]
    rfl

/-! ### Records -/

/-- A pattern in the file: its text, as a string. -/
inductive PatternLayout (r : PatternRecord) : Bytes → Prop
  | mk {text bs : Bytes} (item : ItemLayout r text) (string : StringLayout text bs) :
      PatternLayout r bs

/-- A pattern index in the file. -/
inductive IndexLayout (path : Nat) : Bytes → Prop
  | mk (lt : path < 2 ^ 16) : IndexLayout path (encodeLE 2 path)

/-- A token in the file: its name, and its pattern indices behind their number. -/
inductive TokenLayout (t : GrammarToken) : Bytes → Prop
  | mk {name indices : Bytes} (string : StringLayout t.name name) (lt : t.patterns.length < 256)
      (records : Records IndexLayout t.patterns indices) :
      TokenLayout t (name ++ (encodeLE 1 t.patterns.length ++ indices))

/-- A grammar in the file: its tokens behind their number. -/
inductive GrammarLayout (g : Grammar) : Bytes → Prop
  | mk {tokens : Bytes} (lt : g.tokens.length < 256)
      (records : Records TokenLayout g.tokens tokens) :
      GrammarLayout g (encodeLE 1 g.tokens.length ++ tokens)

/-- A language in the file: its name, its display name and the index of its grammar. -/
inductive LanguageLayout (l : Bytes × Bytes × Nat) : Bytes → Prop
  | mk {name displayName : Bytes} (string : StringLayout l.1 name)
      (display : StringLayout l.2.1 displayName) (lt : l.2.2 < 2 ^ 16) :
      LanguageLayout l (name ++ (displayName ++ encodeLE 2 l.2.2))

/-- The file: three lists, each behind the number of its records. This says what a file is, without
the loader. -/
inductive FileLayout (ps : List PatternRecord) (gs : List Grammar)
    (ls : List (Bytes × Bytes × Nat)) :
    Bytes → Prop
  | mk {bs₁ bs₂ bs₃ : Bytes} (patterns_lt : ps.length < 2 ^ 16) (grammars_lt : gs.length < 2 ^ 16)
      (languages_lt : ls.length < 2 ^ 16) (patterns : Records PatternLayout ps bs₁)
      (grammars : Records GrammarLayout gs bs₂) (languages : Records LanguageLayout ls bs₃) :
      FileLayout ps gs ls ((encodeLE 2 ps.length ++ bs₁) ++
        ((encodeLE 2 gs.length ++ bs₂) ++ (encodeLE 2 ls.length ++ bs₃)))

/-- Appending one by one appends the list. -/
theorem foldl_concat {α : Type} (xs ys : List α) :
    xs.foldl (fun ys x => ys ++ [x]) ys = ys ++ xs := by
  induction xs generalizing ys with
  | nil => simp
  | cons x xs ih => rw [List.foldl_cons, ih, List.append_assoc, List.singleton_append]

/-- The indices of a token are read back, behind their number. -/
theorem consumes_parseIndices {indices : List Nat} {bs : Bytes} (lt : indices.length < 256)
    (h : Records IndexLayout indices bs) :
    Consumes parseIndices (encodeLE 1 indices.length ++ bs) indices := by
  have hloop : Consumes (repeatM (fun indices => do
      let path ← freadUint16
      return indices ++ [path]) indices.length []) bs
      (indices.foldl (fun indices path => indices ++ [path]) []) := by
    refine .repeatM h (fun path _ bs s hpath => ?_) []
    cases hpath with
    | mk lt => exact (consumes_freadUint16 lt).bind_last (.pure _)
  rw [foldl_concat, List.nil_append] at hloop
  exact (consumes_freadUint8 lt).bind hloop

/-- The tokens of a grammar are read back, behind their number. -/
theorem consumes_parseTokens {tokens : List GrammarToken} {bs : Bytes} (lt : tokens.length < 256)
    (h : Records TokenLayout tokens bs) :
    Consumes parseTokens (encodeLE 1 tokens.length ++ bs) tokens := by
  have hloop : Consumes (repeatM (fun tokens => do
      let key ← freadString
      let indices ← parseIndices
      return tokens ++ [⟨key, indices⟩]) tokens.length []) bs
      (tokens.foldl (fun tokens token => tokens ++ [token]) []) := by
    refine .repeatM h (fun t _ bs s ht => ?_) []
    cases ht with
    | mk string lt records =>
      refine string.consumes.bind ?_
      exact (consumes_parseIndices lt records).bind_last (.pure _)
  rw [foldl_concat, List.nil_append] at hloop
  exact (consumes_freadUint8 lt).bind hloop

/-- The grammars are read back and added to the tree in their order. -/
theorem consumes_parseGrammars {gs : List Grammar} {bs : Bytes} (lt : gs.length < 2 ^ 16)
    (h : Records GrammarLayout gs bs) (tree : LanguageTree) :
    Consumes (parseGrammars tree) (encodeLE 2 gs.length ++ bs)
      (gs.foldl (fun tree g => { tree with grammars := tree.grammars ++ [g] }) tree) := by
  refine (consumes_freadUint16 lt).bind (Consumes.repeatM h (fun g _ bs tree hg => ?_) tree)
  cases hg with
  | mk lt records => exact (consumes_parseTokens lt records).bind_last (.pure _)

/-- The languages are read back and put into the tree in their order. -/
theorem consumes_parseLanguages {ls : List (Bytes × Bytes × Nat)} {bs : Bytes}
    (lt : ls.length < 2 ^ 16) (h : Records LanguageLayout ls bs) (tree : LanguageTree) :
    Consumes (parseLanguages tree) (encodeLE 2 ls.length ++ bs)
      (ls.foldl LanguageTree.emplace tree) := by
  refine (consumes_freadUint16 lt).bind (Consumes.repeatM h (fun l _ bs tree hl => ?_) tree)
  cases hl with
  | mk string display lt =>
    refine string.consumes.bind (display.consumes.bind ?_)
    exact (consumes_freadUint16 lt).bind_last (.pure _)

/-- The patterns are read back, if the regular expression library accepts each of them. -/
theorem consumes_parsePatterns {ps : List PatternRecord} {bs : Bytes} (lt : ps.length < 2 ^ 16)
    (h : Records PatternLayout ps bs)
    (accepts : ∀ r ∈ ps, compiles r.source r.pattern.flags = true) (tree : LanguageTree) :
    Consumes (parsePatterns compiles tree) (encodeLE 2 ps.length ++ bs)
      (ps.foldl (fun tree r => { tree with patterns := tree.patterns ++ [r.pattern] }) tree) := by
  refine (consumes_freadUint16 lt).bind (Consumes.repeatM h (fun r hr bs tree hrec => ?_) tree)
  cases hrec with
  | mk item string =>
    exact string.consumes.bind_last (.lift (parsePattern_eq item string.lt (accepts r hr) tree))

/-! ### The file -/

/-- Adding the patterns one by one appends them all. -/
theorem foldl_patterns (ps : List PatternRecord) (tree : LanguageTree) :
    ps.foldl (fun tree r => { tree with patterns := tree.patterns ++ [r.pattern] }) tree
      = { tree with patterns := tree.patterns ++ ps.map PatternRecord.pattern } := by
  induction ps generalizing tree with
  | nil => simp
  | cons r ps ih => simp [ih]

/-- Adding the grammars one by one appends them all. -/
theorem foldl_grammars (gs : List Grammar) (tree : LanguageTree) :
    gs.foldl (fun tree g => { tree with grammars := tree.grammars ++ [g] }) tree
      = { tree with grammars := tree.grammars ++ gs } := by
  induction gs generalizing tree with
  | nil => simp
  | cons g gs ih => simp [ih]

/-- Languages with new and distinct names are all added. -/
theorem foldl_emplace {ls : List (Bytes × Bytes × Nat)} (distinct : (ls.map (·.1)).Nodup)
    (tree : LanguageTree) (fresh : ∀ l ∈ ls, ∀ k ∈ tree.languages, k.1 ≠ l.1) :
    ls.foldl LanguageTree.emplace tree = { tree with languages := tree.languages ++ ls } := by
  induction ls generalizing tree with
  | nil => simp
  | cons l ls ih =>
    obtain ⟨hl, hls⟩ := List.nodup_cons.mp distinct
    have hnone : tree.languages.lookup l.1 = none :=
      List.lookup_eq_none_iff.mpr fun k hk =>
        bne_iff_ne.mpr (fresh l List.mem_cons_self k hk).symm
    have hstep : tree.emplace l = { tree with languages := tree.languages ++ [l] } := by
      rw [LanguageTree.emplace, hnone]
      rfl
    rw [List.foldl_cons, hstep, ih hls]
    · simp
    · intro l' hl' k hk
      rcases List.mem_append.mp hk with hk | hk
      · exact fresh l' (List.mem_cons_of_mem _ hl') k hk
      · rw [List.mem_singleton.mp hk]
        intro he
        exact hl (List.mem_map.mpr ⟨l', hl', he.symm⟩)

/-- The entry of a name that occurs once. -/
theorem lookup_of_nodup {ls : List (Bytes × Bytes × Nat)} (distinct : (ls.map (·.1)).Nodup)
    {l : Bytes × Bytes × Nat} (h : l ∈ ls) : ls.lookup l.1 = some l.2 := by
  induction ls with
  | nil => cases h
  | cons l' ls ih =>
    obtain ⟨hl', hls⟩ := List.nodup_cons.mp distinct
    rcases List.mem_cons.mp h with rfl | h
    · exact List.lookup_cons_self
    · have hne : (l.1 == l'.1) = false := by
        refine beq_false_of_ne fun he => ?_
        exact hl' (List.mem_map.mpr ⟨l, h, he⟩)
      rw [List.lookup_cons, hne]
      exact ih hls h

/-- `load` builds the records of a serialisation, and reads it to its last byte. The patterns and
the grammars are found under their indices and the languages under their names, and no other name is
found. The names are different, and the regular expression library accepts the patterns. -/
theorem load_decodes {ps : List PatternRecord} {gs : List Grammar} {ls : List (Bytes × Bytes × Nat)}
    {content : Bytes} (layout : FileLayout ps gs ls content) (distinct : (ls.map (·.1)).Nodup)
    (accepts : ∀ r ∈ ps, compiles r.source r.pattern.flags = true) :
    ∃ tree, load compiles ⟨[], [], []⟩ content = .ok (tree, ⟨content, content.length⟩) ∧
      (∀ i, tree.resolvePattern i = (ps[i]?).map PatternRecord.pattern) ∧
      (∀ i, tree.resolveGrammar i = gs[i]?) ∧
      (∀ l ∈ ls, tree.languages.lookup l.1 = some l.2 ∧ tree.find l.1 = gs[l.2.2]?) ∧
      ∀ key, (∀ l ∈ ls, l.1 ≠ key) → tree.find key = none := by
  cases layout with
  | mk patterns_lt grammars_lt languages_lt patterns grammars languages =>
    -- Each of the three parts is read to its end, where the next one starts.
    have hparse : Consumes (parseTree compiles ⟨[], [], []⟩) _ _ :=
      (consumes_parsePatterns patterns_lt patterns accepts ⟨[], [], []⟩).bind
        ((consumes_parseGrammars grammars_lt grammars _).bind
          (consumes_parseLanguages languages_lt languages _))
    have hload := hparse.run
    rw [foldl_patterns, foldl_grammars, foldl_emplace distinct _ (by simp)] at hload
    refine ⟨_, hload, fun i => ?_, fun i => ?_, fun l hl => ?_, fun key hkey => ?_⟩
    · simp [LanguageTree.resolvePattern]
    · simp [LanguageTree.resolveGrammar]
    · have hlookup := lookup_of_nodup distinct hl
      refine ⟨by simpa using hlookup, ?_⟩
      simp [LanguageTree.find, LanguageTree.findIndex, hlookup, LanguageTree.resolveGrammar]
    · have hnone : ls.lookup key = none :=
        List.lookup_eq_none_iff.mpr fun l hl => bne_iff_ne.mpr (hkey l hl).symm
      simp [LanguageTree.find, LanguageTree.findIndex, hnone]

/-- A file with one pattern, one grammar and one language. The source and the alias of the pattern
contain delimiters. -/
theorem load_decodes_quote : ∃ content tree, FileLayout
    [⟨ascii "'[^/,]*'", ascii "yi", ascii "char,text", some 0⟩]
    [⟨[⟨ascii "string", [0]⟩]⟩] [(ascii "quote", ascii "Quote", 0)] content ∧
    load (fun _ _ => true) ⟨[], [], []⟩ content = .ok (tree, ⟨content, content.length⟩) ∧
    tree.find (ascii "quote") = some ⟨[⟨ascii "string", [0]⟩]⟩ := by
  have hinside : InsideLayout (some (decimalValue (ascii "0"))) (ascii "0") :=
    .decimal (by decide) (by decide +kernel) (by decide)
  have hitem : ItemLayout ⟨ascii "'[^/,]*'", ascii "yi", ascii "char,text", some 0⟩ _ :=
    .mk (by decide +kernel) (by decide) hinside
  have layout : FileLayout _ _ [(ascii "quote", ascii "Quote", 0)] _ :=
    .mk (by decide) (by decide) (by decide) (.cons (.mk hitem (.mk (.short (by decide)))) .nil)
      (.cons (.mk (g := ⟨[⟨ascii "string", [0]⟩]⟩) (by decide)
        (.cons (.mk (.mk (.short (by decide))) (by decide)
          (.cons (.mk (by decide)) .nil)) .nil)) .nil)
      (.cons (.mk (.mk (.short (by decide))) (.mk (.short (by decide))) (by decide)) .nil)
  obtain ⟨tree, hload, -, -, hfind, -⟩ :=
    @load_decodes (fun _ _ => true) _ _ _ _ layout (by decide) (by simp)
  exact ⟨_, tree, layout, hload, (hfind _ List.mem_cons_self).2⟩

end TSubSpec.Prisma
