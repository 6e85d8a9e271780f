import TSubSpec.Lib.Bytes

/-!
# `TSubSpec.Lib.Base64`: base64 for URLs, without padding

`decode` reads a text of the alphabet for URLs. Line breaks are skipped wherever they stand. Four
symbols make three bytes, and a group of two or three symbols at the end makes one or two bytes.
The bits of its last symbol that do not fit into a byte are dropped, whatever they are.

So different texts can stand for the same bytes. `decode_eq_iff` says which ones: those with the
same `canonical` symbols.
-/

set_option autoImplicit false

namespace TSubSpec.Lib.Base64

/-- The alphabet. The place of a character is its value. -/
def alphabet : Bytes :=
  ascii "ABCDEFGHIJKLMNOPQRSTUVWXYZabcdefghijklmnopqrstuvwxyz0123456789-_"

/-- The values of the characters of a text, without the line breaks. -/
def symbols (s : Bytes) : Option (List Nat) :=
  (s.filter fun b => b ≠ 0x0d ∧ b ≠ 0x0a).mapM fun b => alphabet.idxOf? b

/-- The first byte of a group. -/
def byte₀ (a b : Nat) : UInt8 := UInt8.ofNat (a * 4 + b / 16)

/-- The second byte of a group. -/
def byte₁ (b c : Nat) : UInt8 := UInt8.ofNat (b % 16 * 16 + c / 4)

/-- The third byte of a group. -/
def byte₂ (c d : Nat) : UInt8 := UInt8.ofNat (c % 4 * 64 + d)

/-- The bytes that the symbols make. -/
def bytes : List Nat → Option Bytes
  | [] => some []
  | [_] => none
  | [a, b] => some [byte₀ a b]
  | [a, b, c] => some [byte₀ a b, byte₁ b c]
  | a :: b :: c :: d :: rest => (bytes rest).map fun tail =>
    byte₀ a b :: byte₁ b c :: byte₂ c d :: tail

/-- Decodes a text. -/
def decode (s : Bytes) : Option Bytes := (symbols s).bind bytes

/-- The symbols without the bits that are dropped. -/
def canonical : List Nat → List Nat
  | [a, b] => [a, b / 16]
  | [a, b, c] => [a, b, c / 4]
  | a :: b :: c :: d :: rest => a :: b :: c :: d :: canonical rest
  | rest => rest

/-- The value of a character has six bits. -/
theorem lt_of_idxOf? {b : UInt8} {x : Nat} (h : alphabet.idxOf? b = some x) : x < 64 :=
  (List.findIdx?_eq_some_iff_getElem.mp h).1

/-- A symbol has six bits. -/
theorem lt_of_mem_symbols {s : Bytes} {xs : List Nat} (h : symbols s = some xs) :
    ∀ x ∈ xs, x < 64 := by
  unfold symbols at h
  generalize s.filter _ = text at h
  induction text generalizing xs with
  | nil =>
    obtain rfl := Option.some.inj h
    simp
  | cons b text ih =>
    rw [List.mapM_cons] at h
    obtain ⟨x, hx, h⟩ := Option.bind_eq_some_iff.mp h
    obtain ⟨rest, hrest, h⟩ := Option.bind_eq_some_iff.mp h
    obtain rfl := Option.some.inj h
    exact List.forall_mem_cons.mpr ⟨lt_of_idxOf? hx, ih hrest⟩

/-- Bytes that are made of numbers below 256 are equal only if these are. -/
theorem ofNat_inj {m n : Nat} (hm : m < 256) (hn : n < 256) :
    UInt8.ofNat m = UInt8.ofNat n ↔ m = n := by
  constructor
  · intro h
    have h' := congrArg UInt8.toNat h
    rwa [UInt8.toNat_ofNat_of_lt' hm, UInt8.toNat_ofNat_of_lt' hn] at h'
  · exact congrArg UInt8.ofNat

/-- The bytes of a group of two determine the bits that are not dropped. -/
theorem byte₀_eq_iff {a b a' b' : Nat} (ha : a < 64) (hb : b < 64) (ha' : a' < 64)
    (hb' : b' < 64) : byte₀ a b = byte₀ a' b' ↔ a = a' ∧ b / 16 = b' / 16 := by
  rw [byte₀, byte₀, ofNat_inj (by omega) (by omega)]
  omega

/-- The bytes of a group of three, likewise. -/
theorem byte₁_eq_iff {b c b' c' : Nat} (hc : c < 64) (hc' : c' < 64) :
    byte₁ b c = byte₁ b' c' ↔ b % 16 = b' % 16 ∧ c / 4 = c' / 4 := by
  rw [byte₁, byte₁, ofNat_inj (by omega) (by omega)]
  omega

/-- The third byte of a group has two bits of the third symbol and the six bits of the fourth one,
so these are all that it knows. -/
theorem byte₂_eq_iff {c d c' d' : Nat} (hd : d < 64) (hd' : d' < 64) :
    byte₂ c d = byte₂ c' d' ↔ c % 4 = c' % 4 ∧ d = d' := by
  rw [byte₂, byte₂, ofNat_inj (by omega) (by omega)]
  omega

/-- Three bytes for four symbols. -/
theorem length_bytes : ∀ {xs : List Nat} {s : Bytes}, bytes xs = some s →
    s.length = xs.length * 6 / 8
  | [], s, h => by
    obtain rfl := Option.some.inj h
    rfl
  | [a, b], s, h => by
    obtain rfl := Option.some.inj h
    simp
  | [a, b, c], s, h => by
    obtain rfl := Option.some.inj h
    simp
  | a :: b :: c :: d :: rest, s, h => by
    obtain ⟨tail, htail, rfl⟩ := Option.map_eq_some_iff.mp h
    have ih := length_bytes htail
    simp only [List.length_cons]
    omega

/-- The symbols at the end are changed, but not their number. -/
theorem length_canonical : ∀ xs : List Nat, (canonical xs).length = xs.length
  | [] => rfl
  | [_] => rfl
  | [_, _] => rfl
  | [_, _, _] => rfl
  | a :: b :: c :: d :: rest => by
    rw [canonical]
    simp only [List.length_cons, length_canonical rest]

/-- One symbol is left over of no text that is decoded. -/
theorem length_mod_of_bytes : ∀ {xs : List Nat} {s : Bytes}, bytes xs = some s → xs.length % 4 ≠ 1
  | [], _, _ => by decide
  | [_, _], _, _ => by simp
  | [_, _, _], _, _ => by simp
  | a :: b :: c :: d :: rest, s, h => by
    obtain ⟨tail, htail, -⟩ := Option.map_eq_some_iff.mp h
    have ih := length_mod_of_bytes htail
    simp only [List.length_cons]
    omega

/-- Symbols make the same bytes exactly when they differ in dropped bits only. -/
theorem bytes_eq_iff_of_length : ∀ {xs ys : List Nat} {s t : Bytes}, xs.length = ys.length →
    (∀ x ∈ xs, x < 64) → (∀ y ∈ ys, y < 64) → bytes xs = some s → bytes ys = some t →
    (s = t ↔ canonical xs = canonical ys)
  | [], [], s, t, _, _, _, hs, ht => by
    obtain rfl := Option.some.inj hs
    obtain rfl := Option.some.inj ht
    simp
  | [a, b], [a', b'], s, t, _, hx, hy, hs, ht => by
    obtain rfl := Option.some.inj hs
    obtain rfl := Option.some.inj ht
    simp only [List.forall_mem_cons] at hx hy
    simp [canonical, byte₀_eq_iff hx.1 hx.2.1 hy.1 hy.2.1]
  | [a, b, c], [a', b', c'], s, t, _, hx, hy, hs, ht => by
    obtain rfl := Option.some.inj hs
    obtain rfl := Option.some.inj ht
    simp only [List.forall_mem_cons] at hx hy
    simp [canonical, byte₀_eq_iff hx.1 hx.2.1 hy.1 hy.2.1, byte₁_eq_iff hx.2.2.1 hy.2.2.1]
    omega
  | a :: b :: c :: d :: rest, a' :: b' :: c' :: d' :: rest', s, t, hlength, hx, hy, hs, ht => by
    obtain ⟨tail, htail, rfl⟩ := Option.map_eq_some_iff.mp hs
    obtain ⟨tail', htail', rfl⟩ := Option.map_eq_some_iff.mp ht
    simp only [List.forall_mem_cons] at hx hy
    obtain ⟨ha, hb, hc, hd, hrest⟩ := hx
    obtain ⟨ha', hb', hc', hd', hrest'⟩ := hy
    have ih := bytes_eq_iff_of_length (by simpa using hlength) hrest hrest' htail htail'
    rw [canonical, canonical]
    simp only [List.cons.injEq, byte₀_eq_iff ha hb ha' hb', byte₁_eq_iff hc hc',
      byte₂_eq_iff hd hd', ih]
    -- The groups of four stand for three bytes each; nothing is dropped but at the end.
    constructor
    · rintro ⟨⟨rfl, hb₀⟩, ⟨hb₁, hc₁⟩, ⟨hc₂, rfl⟩, hrest⟩
      exact ⟨rfl, by omega, by omega, rfl, hrest⟩
    · rintro ⟨rfl, rfl, rfl, rfl, hrest⟩
      exact ⟨⟨rfl, rfl⟩, ⟨rfl, rfl⟩, ⟨rfl, rfl⟩, hrest⟩

/-- Two texts stand for the same bytes exactly when their symbols differ in dropped bits only. -/
theorem decode_eq_iff {s t b c : Bytes} (hs : decode s = some b) (ht : decode t = some c) :
    b = c ↔ (symbols s).map canonical = (symbols t).map canonical := by
  obtain ⟨xs, hxs, hb⟩ := Option.bind_eq_some_iff.mp hs
  obtain ⟨ys, hys, hc⟩ := Option.bind_eq_some_iff.mp ht
  have hx := length_mod_of_bytes hb
  have hy := length_mod_of_bytes hc
  rw [hxs, hys, Option.map_some, Option.map_some, Option.some.injEq]
  by_cases hlength : xs.length = ys.length
  · exact bytes_eq_iff_of_length hlength (lt_of_mem_symbols hxs) (lt_of_mem_symbols hys) hb hc
  -- Texts of different lengths make different numbers of bytes, since no symbol is left over.
  · refine iff_of_false (fun h => hlength ?_) fun h => hlength ?_
    · have hsame := (length_bytes hb).symm.trans ((congrArg List.length h).trans (length_bytes hc))
      generalize xs.length = m at *
      generalize ys.length = n at *
      obtain h0 | h2 | h3 : m % 4 = 0 ∨ m % 4 = 2 ∨ m % 4 = 3 := by omega
      all_goals omega
    · simpa [length_canonical] using congrArg List.length h

end TSubSpec.Lib.Base64
