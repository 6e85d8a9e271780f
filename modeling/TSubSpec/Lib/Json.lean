import Mathlib.Data.List.Basic

/-!
# `TSubSpec.Lib.Json`: JSON texts

A parser for JSON, and a writer for objects whose members are strings. Both work on characters,
and follow the package `encoding/json` of Go: the writer escapes `<`, `>`, `&` and the two line
separators, the parser joins surrogate pairs, takes other surrogates for U+FFFD, and refuses more
than ten thousand levels of nesting.

`parse_writeObject` is the round trip.
-/

set_option autoImplicit false

namespace TSubSpec.Lib.Json

/-- A value. A number is kept as its text. -/
inductive Value where
  | null
  | bool (b : Bool)
  | number (text : List Char)
  | string (s : List Char)
  | array (elems : List Value)
  | object (members : List (List Char × Value))

/-! ### Strings -/

/-- The value of a hexadecimal digit. -/
def hexVal? (c : Char) : Option Nat :=
  if c.isDigit then some (c.toNat - 0x30)
  else if 'a' ≤ c ∧ c ≤ 'f' then some (c.toNat - 0x57)
  else if 'A' ≤ c ∧ c ≤ 'F' then some (c.toNat - 0x37)
  else none

/-- The value of four hexadecimal digits. -/
def hex4? (a b c d : Char) : Option Nat := do
  return ((← hexVal? a) * 16 + (← hexVal? b)) * 256 + ((← hexVal? c) * 16 + (← hexVal? d))

/-- An escape of four digits. -/
def unicodeEscape (n : Nat) : List Char :=
  ['\\', 'u', Nat.digitChar (n / 4096 % 16), Nat.digitChar (n / 256 % 16),
    Nat.digitChar (n / 16 % 16), Nat.digitChar (n % 16)]

/-- The escapes of one letter. -/
def shortEscapes : List (Char × Char) :=
  [('"', '"'), ('\\', '\\'), ('\x08', 'b'), ('\x0c', 'f'), ('\n', 'n'), ('\r', 'r'), ('\t', 't')]

/-- The writer escapes the character with its number. -/
def NeedsNumber (c : Char) : Prop :=
  c.toNat < 0x20 ∨ c = '<' ∨ c = '>' ∨ c = '&' ∨ c = '\u2028' ∨ c = '\u2029'
  deriving Decidable

/-- A character in a string. -/
def escape (c : Char) : List Char :=
  match shortEscapes.lookup c with
  | some letter => ['\\', letter]
  | none => if NeedsNumber c then unicodeEscape c.toNat else [c]

/-- A string with its quotes. -/
def quote (cs : List Char) : List Char := '"' :: (cs.flatMap escape ++ ['"'])

/-- What an escape of one letter stands for. The parser also knows `\/`. -/
def unescapeLetter? (letter : Char) : Option Char :=
  if letter = '/' then some '/'
  else (shortEscapes.find? fun e => e.2 = letter).map Prod.fst

/-- The part of a string up to its closing quote, and what follows. An escape with a number is
left as the number, which can be half of a surrogate pair. -/
def unescape : List Char → Option (List (Char ⊕ Nat) × List Char)
  | [] => none
  | c :: rest =>
    if c = '"' then some ([], rest)
    else if c = '\\' then
      match rest with
      | 'u' :: h₁ :: h₂ :: h₃ :: h₄ :: rest =>
        (hex4? h₁ h₂ h₃ h₄).bind fun n =>
          (unescape rest).map fun (units, rest) => (.inr n :: units, rest)
      | letter :: rest =>
        (unescapeLetter? letter).bind fun c =>
          (unescape rest).map fun (units, rest) => (.inl c :: units, rest)
      | [] => none
    else if c.toNat < 0x20 then none
    else (unescape rest).map fun (units, rest) => (.inl c :: units, rest)

/-- The first half of a surrogate pair. -/
def IsHigh (n : Nat) : Prop := 0xd800 ≤ n ∧ n < 0xdc00
  deriving Decidable

/-- The second half of a surrogate pair. -/
def IsLow (n : Nat) : Prop := 0xdc00 ≤ n ∧ n < 0xe000
  deriving Decidable

/-- The character with a number, where U+FFFD stands for half of a pair. -/
def charOf (n : Nat) : Char := if IsHigh n ∨ IsLow n then '\ufffd' else Char.ofNat n

/-- The characters of a string, with surrogate pairs joined. -/
def joinPairs : List (Char ⊕ Nat) → List Char
  | [] => []
  | .inl c :: units => c :: joinPairs units
  | .inr n :: .inr m :: units =>
    if IsHigh n ∧ IsLow m then
      Char.ofNat (0x10000 + (n - 0xd800) * 0x400 + (m - 0xdc00)) :: joinPairs units
    else charOf n :: joinPairs (.inr m :: units)
  | .inr n :: units => charOf n :: joinPairs units

/-- A string after its opening quote. -/
def unquote (cs : List Char) : Option (List Char × List Char) :=
  (unescape cs).map fun (units, rest) => (joinPairs units, rest)

/-! ### Values -/

/-- White space is skipped. -/
def skip (cs : List Char) : List Char :=
  cs.dropWhile fun c => c = ' ' ∨ c = '\t' ∨ c = '\r' ∨ c = '\n'

/-- At least one digit. -/
def digits (cs : List Char) : Option (List Char × List Char) :=
  match cs.takeWhile Char.isDigit with
  | [] => none
  | ds => some (ds, cs.dropWhile Char.isDigit)

/-- A number. -/
def number (cs : List Char) : Option (List Char × List Char) := do
  let (sign, cs) := match cs with
    | '-' :: cs => (['-'], cs)
    | cs => ([], cs)
  let (int, cs) ← match cs with
    | '0' :: cs => some (['0'], cs)
    | cs => digits cs
  let (frac, cs) ← match cs with
    | '.' :: cs => (digits cs).map fun (ds, cs) => ('.' :: ds, cs)
    | cs => some ([], cs)
  let (exp, cs) ← match cs with
    | 'e' :: '+' :: cs => (digits cs).map fun (ds, cs) => ('e' :: '+' :: ds, cs)
    | 'e' :: '-' :: cs => (digits cs).map fun (ds, cs) => ('e' :: '-' :: ds, cs)
    | 'e' :: cs => (digits cs).map fun (ds, cs) => ('e' :: ds, cs)
    | 'E' :: '+' :: cs => (digits cs).map fun (ds, cs) => ('E' :: '+' :: ds, cs)
    | 'E' :: '-' :: cs => (digits cs).map fun (ds, cs) => ('E' :: '-' :: ds, cs)
    | 'E' :: cs => (digits cs).map fun (ds, cs) => ('E' :: ds, cs)
    | cs => some ([], cs)
  return (sign ++ int ++ frac ++ exp, cs)

mutual

/-- A value. Every call takes at least one character, so the length of the text is enough fuel. -/
def value : Nat → Nat → List Char → Option (Value × List Char)
  | 0, _, _ => none
  | fuel + 1, depth, cs =>
    match skip cs with
    | '{' :: cs =>
      match depth, skip cs with
      | 0, _ => none
      | _ + 1, '}' :: cs => some (.object [], cs)
      | depth + 1, cs => (members fuel depth cs).map fun (ms, cs) => (.object ms, cs)
    | '[' :: cs =>
      match depth, skip cs with
      | 0, _ => none
      | _ + 1, ']' :: cs => some (.array [], cs)
      | depth + 1, cs => (elements fuel depth cs).map fun (vs, cs) => (.array vs, cs)
    | '"' :: cs => (unquote cs).map fun (s, cs) => (.string s, cs)
    | 'n' :: 'u' :: 'l' :: 'l' :: cs => some (.null, cs)
    | 't' :: 'r' :: 'u' :: 'e' :: cs => some (.bool true, cs)
    | 'f' :: 'a' :: 'l' :: 's' :: 'e' :: cs => some (.bool false, cs)
    | cs => (number cs).map fun (text, cs) => (.number text, cs)

/-- The members of an object, up to the closing brace. -/
def members : Nat → Nat → List Char → Option (List (List Char × Value) × List Char)
  | 0, _, _ => none
  | fuel + 1, depth, cs =>
    match skip cs with
    | '"' :: cs =>
      (unquote cs).bind fun (key, cs) =>
        match skip cs with
        | ':' :: cs =>
          (value fuel depth cs).bind fun (v, cs) =>
            match skip cs with
            | ',' :: cs => (members fuel depth cs).map fun (ms, cs) => ((key, v) :: ms, cs)
            | '}' :: cs => some ([(key, v)], cs)
            | _ => none
        | _ => none
    | _ => none

/-- The elements of an array, up to the closing bracket. -/
def elements : Nat → Nat → List Char → Option (List Value × List Char)
  | 0, _, _ => none
  | fuel + 1, depth, cs =>
    (value fuel depth cs).bind fun (v, cs) =>
      match skip cs with
      | ',' :: cs => (elements fuel depth cs).map fun (vs, cs) => (v :: vs, cs)
      | ']' :: cs => some ([v], cs)
      | _ => none

end

/-- The value that a text is. -/
def parse (cs : List Char) : Option Value :=
  match value (cs.length + 1) 10000 cs with
  | some (v, cs) => if skip cs = [] then some v else none
  | none => none

/-! ### Objects of strings -/

/-- A member of an object. -/
def writeMember (m : List Char × List Char) : List Char := quote m.1 ++ ':' :: quote m.2

/-- The members of an object, with commas between them. -/
def writeMembers : List (List Char × List Char) → List Char
  | [] => []
  | [m] => writeMember m
  | m :: ms => writeMember m ++ ',' :: writeMembers ms

/-- An object whose members are strings. -/
def writeObject (ms : List (List Char × List Char)) : List Char := '{' :: (writeMembers ms ++ ['}'])

/-! ### Strings are read back -/

section

variable {c : Char} {cs rest : List Char} {n : Nat}

/-- The digit of a number below sixteen is read as that number. -/
theorem hexVal?_digitChar (h : n < 16) : hexVal? (Nat.digitChar n) = some n := by
  have hall : ∀ n < 16, hexVal? (Nat.digitChar n) = some n := by decide
  exact hall n h

/-- Four digits have the number they were written for. -/
theorem hex4?_unicodeEscape (h : n < 0x10000) :
    hex4? (Nat.digitChar (n / 4096 % 16)) (Nat.digitChar (n / 256 % 16))
      (Nat.digitChar (n / 16 % 16)) (Nat.digitChar (n % 16)) = some n := by
  have hdigit : ∀ m, hexVal? (Nat.digitChar (m % 16)) = some (m % 16) :=
    fun m => hexVal?_digitChar (Nat.mod_lt m (by omega))
  simp only [hex4?, hdigit, Option.pure_def, Option.bind_eq_bind, Option.bind_some,
    Option.some.injEq]
  omega

/-- How the parser first reads a character that was written. -/
def unit (c : Char) : Char ⊕ Nat :=
  if shortEscapes.lookup c = none ∧ NeedsNumber c then .inr c.toNat else .inl c

/-- A character is first read as itself, or as the number in its escape. In both cases it is known
which character it was. -/
theorem unit_cases (c : Char) : unit c = .inl c ∨ unit c = .inr c.toNat := by
  unfold unit
  split
  · exact Or.inr rfl
  · exact Or.inl rfl

/-- An escape of one letter. -/
theorem unescape_letter {letter : Char} (h : unescapeLetter? letter = some c) :
    unescape ('\\' :: letter :: rest) =
      (unescape rest).map fun (units, rest) => (.inl c :: units, rest) := by
  have hu : letter ≠ 'u' := by
    rintro rfl
    cases h
  rw [unescape, if_neg (by decide), if_pos rfl, h, Option.bind_some]
  exact fun _ _ _ _ _ he => absurd he hu

/-- An escape with a number. -/
theorem unescape_number (h : n < 0x10000) : unescape (unicodeEscape n ++ rest) =
    (unescape rest).map fun (units, rest) => (.inr n :: units, rest) := by
  rw [unicodeEscape, List.cons_append, List.cons_append, List.cons_append, List.cons_append,
    List.cons_append, List.cons_append, List.nil_append, unescape, if_neg (by decide), if_pos rfl,
    hex4?_unicodeEscape h, Option.bind_some]

/-- A character that stands for itself. -/
theorem unescape_plain (hquote : c ≠ '"') (hslash : c ≠ '\\') (hcontrol : ¬c.toNat < 0x20) :
    unescape (c :: rest) = (unescape rest).map fun (units, rest) => (.inl c :: units, rest) := by
  rw [unescape.eq_def]
  show (if c = '"' then _ else if c = '\\' then _ else if c.toNat < 0x20 then _ else _) = _
  rw [if_neg hquote, if_neg hslash, if_neg hcontrol]

/-- A written character is read as its unit. -/
theorem unescape_escape (c : Char) (rest : List Char) : unescape (escape c ++ rest) =
    (unescape rest).map fun (units, rest) => (unit c :: units, rest) := by
  unfold escape unit
  cases hlookup : shortEscapes.lookup c with
  | some letter =>
    have hall : ∀ e ∈ shortEscapes, unescapeLetter? e.2 = some e.1 := by decide
    obtain ⟨before, after, hsplit, -⟩ := List.lookup_eq_some_iff.mp hlookup
    have hletter := hall (c, letter) (by simp [hsplit])
    simp only [reduceCtorEq, false_and, if_false]
    exact unescape_letter hletter
  | none =>
    have hnot : ∀ e ∈ shortEscapes, c ≠ e.1 := by
      intro e he hc
      simpa [hc] using List.lookup_eq_none_iff.mp hlookup e he
    by_cases hnumber : NeedsNumber c
    · have hsmall : c.toNat < 0x10000 := by
        rcases hnumber with h | rfl | rfl | rfl | rfl | rfl
        · omega
        all_goals decide
      simp only [hnumber, and_self, if_true]
      exact unescape_number hsmall
    · simp only [hnumber, and_false, if_false]
      exact unescape_plain (hnot ('"', '"') (by decide)) (hnot ('\\', '\\') (by decide))
        fun h => hnumber (.inl h)

/-- Written characters are read up to the closing quote. -/
theorem unescape_quoted (cs rest : List Char) :
    unescape (cs.flatMap escape ++ '"' :: rest) = some (cs.map unit, rest) := by
  induction cs with
  | nil =>
    rw [List.flatMap_nil, List.nil_append, unescape.eq_def]
    exact if_pos rfl
  | cons c cs ih =>
    rw [List.flatMap_cons, List.append_assoc, unescape_escape, ih, Option.map_some, List.map_cons]

/-- No character is half of a surrogate pair. -/
theorem not_isHigh (c : Char) : ¬IsHigh c.toNat := by
  have hvalid : c.toNat < 0xd800 ∨ 0xdfff < c.toNat ∧ c.toNat < 0x110000 := c.valid
  unfold IsHigh
  omega

/-- A character is found again from its number. -/
theorem charOf_toNat (c : Char) : charOf c.toNat = c := by
  have hvalid : c.toNat < 0xd800 ∨ 0xdfff < c.toNat ∧ c.toNat < 0x110000 := c.valid
  rw [charOf, if_neg, Char.ofNat_toNat]
  unfold IsHigh IsLow
  omega

/-- The units of characters are joined to these characters. The induction is on the text, and no
unit starts a pair. -/
theorem joinPairs_map_unit (cs : List Char) : joinPairs (cs.map unit) = cs := by
  induction cs with
  | nil => rfl
  | cons c cs ih =>
    rw [List.map_cons]
    rcases unit_cases c with hc | hc
    · rw [hc, joinPairs, ih]
    · rw [hc]
      cases cs with
      | nil => rw [List.map_nil, joinPairs, charOf_toNat, joinPairs]; exact nofun
      | cons d cs =>
        rw [List.map_cons] at ih ⊢
        rcases unit_cases d with hd | hd
        · rw [hd] at ih ⊢
          rw [joinPairs, charOf_toNat, ih]
          exact nofun
        · rw [hd] at ih ⊢
          rw [joinPairs, if_neg fun h => not_isHigh c h.1, charOf_toNat, ih]

/-- A quoted string is read back. -/
theorem unquote_quoted (cs rest : List Char) :
    unquote (cs.flatMap escape ++ '"' :: rest) = some (cs, rest) := by
  rw [unquote, unescape_quoted, Option.map_some]
  show some (joinPairs (cs.map unit), rest) = _
  rw [joinPairs_map_unit]

end

/-! ### Objects of strings are read back -/

/-- A text that was quoted is read back as that text, whatever follows it. -/
theorem value_quote (fuel depth : Nat) (cs rest : List Char) :
    value (fuel + 1) depth (quote cs ++ rest) = some (.string cs, rest) := by
  have hquote : quote cs ++ rest = '"' :: (cs.flatMap escape ++ '"' :: rest) := by
    rw [quote, List.cons_append, List.append_assoc, List.singleton_append]
  rw [hquote, value]
  show (unquote (cs.flatMap escape ++ '"' :: rest)).map _ = _
  rw [unquote_quoted, Option.map_some]

/-- What the parser does after a member that was written. -/
theorem members_writeMember (fuel depth : Nat) (m : List Char × List Char) (rest : List Char) :
    members (fuel + 2) depth (writeMember m ++ rest) =
      match skip rest with
      | ',' :: cs => (members (fuel + 1) depth cs).map fun (ms, cs) =>
          ((m.1, .string m.2) :: ms, cs)
      | '}' :: cs => some ([(m.1, .string m.2)], cs)
      | _ => none := by
  have hmember : writeMember m ++ rest =
      '"' :: (m.1.flatMap escape ++ '"' :: ':' :: (quote m.2 ++ rest)) := by
    simp only [writeMember, quote, List.cons_append, List.append_assoc, List.nil_append]
  rw [hmember, members]
  show (unquote (m.1.flatMap escape ++ '"' :: ':' :: (quote m.2 ++ rest))).bind _ = _
  rw [unquote_quoted, Option.bind_some]
  show (value (fuel + 1) depth (quote m.2 ++ rest)).bind _ = _
  rw [value_quote, Option.bind_some]

/-- The members that were written are read. The induction is on the members, and each of them
takes one unit of fuel. -/
theorem members_writeMembers {fuel depth : Nat} {ms : List (List Char × List Char)}
    {rest : List Char} (hne : ms ≠ []) (hfuel : ms.length < fuel) :
    members fuel depth (writeMembers ms ++ '}' :: rest) =
      some (ms.map fun m => (m.1, .string m.2), rest) := by
  induction ms generalizing fuel with
  | nil => exact absurd rfl hne
  | cons m ms ih =>
    rw [List.length_cons] at hfuel
    obtain ⟨fuel, rfl⟩ : ∃ n, fuel = n + 2 := ⟨fuel - 2, by omega⟩
    cases ms with
    | nil =>
      rw [writeMembers, members_writeMember]
      rfl
    | cons m' ms =>
      rw [writeMembers, List.append_assoc, members_writeMember]
      · show (members (fuel + 1) depth (writeMembers (m' :: ms) ++ '}' :: rest)).map _ = _
        rw [ih (List.cons_ne_nil _ _) (by omega)]
        rfl
      · exact List.cons_ne_nil _ _

/-- A text has more characters than members. -/
theorem length_le_writeMembers (ms : List (List Char × List Char)) :
    ms.length ≤ (writeMembers ms).length := by
  induction ms with
  | nil => exact Nat.le_refl 0
  | cons m ms ih =>
    cases ms with
    | nil => simp [writeMembers, writeMember, quote]
    | cons m' ms =>
      rw [writeMembers]
      · simp only [List.length_append, List.length_cons] at ih ⊢
        omega
      · exact List.cons_ne_nil _ _

/-- The first member starts with a quote. -/
theorem exists_writeMembers_cons (m : List Char × List Char) (ms : List (List Char × List Char))
    (rest : List Char) : ∃ cs, writeMembers (m :: ms) ++ rest = '"' :: cs := by
  cases ms with
  | nil => exact ⟨_, rfl⟩
  | cons m' ms => exact ⟨_, rfl⟩

/-- An object of strings is read back. -/
theorem parse_writeObject {ms : List (List Char × List Char)} (hne : ms ≠ []) :
    parse (writeObject ms) = some (.object (ms.map fun m => (m.1, .string m.2))) := by
  obtain ⟨m, ms', rfl⟩ := List.exists_cons_of_ne_nil hne
  have hfuel : (m :: ms').length < (writeObject (m :: ms')).length := by
    have hlen := length_le_writeMembers (m :: ms')
    simp only [writeObject, List.length_cons, List.length_append] at hlen ⊢
    omega
  have hmembers := @members_writeMembers _ 9999 _ [] hne hfuel
  have hvalue : value ((writeObject (m :: ms')).length + 1) 10000 (writeObject (m :: ms')) =
      some (.object ((m :: ms').map fun m => (m.1, .string m.2)), []) := by
    -- A member follows the brace, so the object is not empty.
    obtain ⟨cs, hcs⟩ := exists_writeMembers_cons m ms' ['}']
    rw [hcs] at hmembers
    generalize (writeObject (m :: ms')).length = fuel at hmembers ⊢
    rw [writeObject, hcs, value]
    show (members fuel 9999 ('"' :: cs)).map _ = _
    rw [hmembers]
    rfl
  rw [parse, hvalue]
  rfl

end TSubSpec.Lib.Json
