import Mathlib.Data.List.Infix
import TSubSpec.Lib.Bytes

/-!
# `TSubSpec.Lib.Utf8`: UTF-8 text cut into pieces

`encode` and `decode?` are the two directions of UTF-8, over the encoder and the decoder of
Lean's own strings. `IsBoundary cs i` says that the byte offset `i` of the encoded text lies
between two characters.

When an encoded text is cut into pieces and every piece is decoded on its own, the pieces that do
not decode are lost. `shown_eq_iff` says when nothing is lost, and `decodes_iff` that this means
that no cut goes through a character.
-/

set_option autoImplicit false

namespace TSubSpec.Lib
namespace Utf8

/-- The UTF-8 bytes of a text. -/
def encode (cs : List Char) : Bytes := cs.flatMap String.utf8EncodeChar

/-- The text of well-formed UTF-8 bytes. -/
def decode? (bs : Bytes) : Option (List Char) := bs.toByteArray.utf8Decode?.map Array.toList

variable {cs ds : List Char} {bs : Bytes} {pieces : List Bytes} {i : Nat}

/-- No characters have no bytes. -/
@[simp] theorem encode_nil : encode [] = [] := rfl

/-- The bytes of the first character come first. Many inductions on a text go by this equation. -/
theorem encode_cons (c : Char) (cs : List Char) :
    encode (c :: cs) = String.utf8EncodeChar c ++ encode cs := rfl

/-- The bytes of two texts, one behind the other, are those of both. -/
@[simp] theorem encode_append (cs ds : List Char) : encode (cs ++ ds) = encode cs ++ encode ds :=
  List.flatMap_append

/-! ### Round trips -/

/-- The bytes are those of the core library, which has them as an array. -/
theorem toByteArray_encode (cs : List Char) : (encode cs).toByteArray = cs.utf8Encode := rfl

/-- Arrays of bytes are equal only if their lists are. -/
theorem toByteArray_inj {xs ys : Bytes} (h : xs.toByteArray = ys.toByteArray) : xs = ys := by
  have hdata := congrArg (fun a => a.data.toList) h
  simpa using hdata

/-- What was encoded is decoded again, so nothing of a text is lost in its bytes. -/
@[simp] theorem decode?_encode (cs : List Char) : decode? (encode cs) = some cs := by
  rw [decode?, toByteArray_encode, List.utf8Decode?_utf8Encode]
  rfl

/-- The bytes that are decoded to a text are exactly those of that text. Overlong forms and
surrogates are refused. -/
theorem decode?_eq_some : decode? bs = some cs ↔ encode cs = bs := by
  constructor
  · intro h
    obtain ⟨a, ha, rfl⟩ := Option.map_eq_some_iff.mp h
    have hsome : bs.toByteArray.utf8Decode?.isSome := by rw [ha]; rfl
    have hget := ByteArray.utf8Encode_get_utf8Decode? (h := hsome)
    simp only [ha, Option.get_some] at hget
    exact toByteArray_inj hget
  · rintro rfl
    exact decode?_encode cs

/-- No bytes are the empty text. -/
@[simp] theorem decode?_nil : decode? [] = some [] := decode?_encode []

/-- The bytes that can be decoded are those of some text. -/
theorem isSome_decode? : (decode? bs).isSome ↔ ∃ cs, encode cs = bs := by
  rw [Option.isSome_iff_exists]
  exact exists_congr fun cs => decode?_eq_some

/-- Different texts have different bytes. -/
theorem encode_injective : Function.Injective encode := by
  intro cs ds h
  have hcs := decode?_encode cs
  rw [h, decode?_encode] at hcs
  exact (Option.some.inj hcs).symm

/-! ### No character is the start of another -/

/-- The first character of a text is known from its first bytes. -/
theorem head_eq_of_append {c d : Char} {xs ys : Bytes}
    (h : String.utf8EncodeChar c ++ xs = String.utf8EncodeChar d ++ ys) : c = d := by
  have harr := congrArg List.toByteArray h
  rw [List.toByteArray_append, List.toByteArray_append] at harr
  have hc := ByteArray.utf8DecodeChar?_utf8EncodeChar_append (b := xs.toByteArray) (c := c)
  rw [harr, ByteArray.utf8DecodeChar?_utf8EncodeChar_append] at hc
  exact (Option.some.inj hc).symm

/-- A text whose bytes start with the bytes of `ds` starts with `ds`. The induction is on `ds`. -/
theorem exists_of_encode_eq_append : ∀ {ds cs : List Char},
    encode cs = encode ds ++ bs → ∃ es, cs = ds ++ es ∧ encode es = bs
  | [], cs, h => ⟨cs, rfl, h⟩
  | d :: ds, [], h => by
    have hlen := congrArg List.length h
    have hpos := d.utf8Size_pos
    simp only [encode_nil, encode_cons, List.length_append, List.length_nil,
      String.length_utf8EncodeChar] at hlen
    omega
  | d :: ds, c :: cs, h => by
    rw [encode_cons, encode_cons, List.append_assoc] at h
    obtain rfl := head_eq_of_append h
    obtain ⟨es, rfl, hes⟩ := exists_of_encode_eq_append (List.append_cancel_left h)
    exact ⟨es, rfl, hes⟩

/-! ### Bytes that are not UTF-8 -/

/-- The characters of at most `n` steps over the bytes, each of which takes one character, or one
byte that starts none and stands for U+FFFD. -/
def runesFrom : Nat → Bytes → List Char
  | 0, _ => []
  | _ + 1, [] => []
  | n + 1, b :: bs =>
    match (b :: bs).toByteArray.utf8DecodeChar? 0 with
    | some c => c :: runesFrom n ((b :: bs).drop c.utf8Size)
    | none => '\uFFFD' :: runesFrom n bs

/-- The characters of any bytes. A byte that starts no character stands for U+FFFD. -/
def runes (bs : Bytes) : List Char := runesFrom bs.length bs

/-- Each character has one byte at least. -/
theorem length_le_length_encode (cs : List Char) : cs.length ≤ (encode cs).length := by
  induction cs with
  | nil => exact Nat.le_refl 0
  | cons c cs ih =>
    have hpos := c.utf8Size_pos
    rw [encode_cons, List.length_append, String.length_utf8EncodeChar, List.length_cons]
    omega

/-- The runes of encoded characters are those characters, if there are enough turns to read them
all. -/
theorem runesFrom_encode {n : Nat} (h : cs.length ≤ n) : runesFrom n (encode cs) = cs := by
  induction cs generalizing n with
  | nil => cases n <;> rfl
  | cons c cs ih =>
    obtain ⟨n, rfl⟩ : ∃ m, n = m + 1 := ⟨n - 1, by rw [List.length_cons] at h; omega⟩
    have hne : encode (c :: cs) ≠ [] := by simp [encode_cons]
    obtain ⟨b, bs, hbs⟩ := List.exists_cons_of_ne_nil hne
    have hdecode : (b :: bs).toByteArray.utf8DecodeChar? 0 = some c := by
      rw [← hbs, encode_cons, List.toByteArray_append]
      exact ByteArray.utf8DecodeChar?_utf8EncodeChar_append
    have hdrop : (b :: bs).drop c.utf8Size = encode cs := by
      rw [← hbs, encode_cons]
      exact List.drop_left' (String.length_utf8EncodeChar c)
    rw [hbs, runesFrom, hdecode]
    show c :: runesFrom n ((b :: bs).drop c.utf8Size) = _
    rw [hdrop, ih (Nat.le_of_succ_le_succ h)]

/-- Well-formed bytes stand for their own characters. -/
@[simp] theorem runes_encode (cs : List Char) : runes (encode cs) = cs :=
  runesFrom_encode (length_le_length_encode cs)

/-! ### The zero byte -/

/-- A byte that is made of a positive number below 256 is not zero. -/
theorem ofNat_ne_zero {n : Nat} (h : 0 < n) (hlt : n < 256) : 0 ≠ UInt8.ofNat n := by
  intro he
  have hn := congrArg UInt8.toNat he
  rw [UInt8.toNat_ofNat_of_lt' hlt] at hn
  exact Nat.ne_of_lt h hn

/-- A byte of a longer encoding has its high bits set. -/
theorem high_ne_zero {n k m : Nat} (hk : 0 < k) (hm : 0 < m) (hle : k + m ≤ 256) :
    0 ≠ UInt8.ofNat (n % k + m) := by
  have hlt := Nat.mod_lt n hk
  exact ofNat_ne_zero (by omega) (by omega)

/-- Only the character zero has a zero byte among its bytes. So a C string ends at that character,
and never inside of another one. -/
theorem zero_mem_utf8EncodeChar {c : Char} : 0 ∈ String.utf8EncodeChar c ↔ c.toNat = 0 := by
  have hval : c.val.toNat = c.toNat := rfl
  unfold String.utf8EncodeChar
  simp only [hval]
  split
  · rename_i hle
    rw [List.mem_singleton]
    constructor
    · intro h
      by_contra hne
      exact ofNat_ne_zero (Nat.pos_of_ne_zero hne) (by omega) h
    · intro h
      rw [h]
      rfl
  · have hne : c.toNat ≠ 0 := by omega
    repeat' split
    all_goals
      simp only [List.mem_cons, List.not_mem_nil, or_false, hne, iff_false, not_or]
      repeat' apply And.intro
    all_goals exact high_ne_zero (by decide) (by decide) (by decide)

/-- Only the character U+0000 is written with a zero byte. -/
theorem zero_mem_encode : 0 ∈ encode cs ↔ '\x00' ∈ cs := by
  simp only [encode, List.mem_flatMap, zero_mem_utf8EncodeChar]
  constructor
  · rintro ⟨c, hc, h⟩
    rwa [← Char.toNat_inj.mp (show c.toNat = '\x00'.toNat from h)]
  · intro h
    exact ⟨_, h, rfl⟩

/-! ### Boundaries -/

/-- The byte offset `i` lies between two characters of the text, or at one of its ends. -/
def IsBoundary (cs : List Char) (i : Nat) : Prop := ∃ ds ∈ cs.inits, (encode ds).length = i

instance (cs : List Char) (i : Nat) : Decidable (IsBoundary cs i) :=
  inferInstanceAs (Decidable (∃ ds ∈ cs.inits, (encode ds).length = i))

/-- A boundary is the length in bytes of some characters from the front. -/
theorem isBoundary_iff : IsBoundary cs i ↔ ∃ ds, ds <+: cs ∧ (encode ds).length = i := by
  simp only [IsBoundary, List.mem_inits]

/-- A text begins at a boundary. -/
theorem isBoundary_zero (cs : List Char) : IsBoundary cs 0 :=
  isBoundary_iff.mpr ⟨[], List.nil_prefix, rfl⟩

/-- A text ends at a boundary. -/
theorem isBoundary_length (cs : List Char) : IsBoundary cs (encode cs).length :=
  isBoundary_iff.mpr ⟨cs, List.prefix_rfl, rfl⟩

/-- A prefix of the bytes decodes exactly if it ends at a boundary. -/
theorem isBoundary_length_iff {xs ys : Bytes} (h : xs ++ ys = encode cs) :
    IsBoundary cs xs.length ↔ ∃ ds, encode ds = xs := by
  rw [isBoundary_iff]
  constructor
  · rintro ⟨ds, ⟨es, rfl⟩, hlen⟩
    rw [encode_append] at h
    exact ⟨ds, (List.append_inj_left h hlen.symm).symm⟩
  · rintro ⟨ds, rfl⟩
    obtain ⟨es, rfl, -⟩ := exists_of_encode_eq_append h.symm
    exact ⟨ds, List.prefix_append ds es, rfl⟩

/-- Between two boundaries of a text lies a stretch of whole characters, and its boundaries are
boundaries of the text. -/
theorem exists_infix {j : Nat} (hi : IsBoundary cs i) (hj : IsBoundary cs j) (hle : i ≤ j) :
    ∃ ds, ds <:+: cs ∧ ((encode cs).drop i).take (j - i) = encode ds ∧
      ∀ k, IsBoundary ds k → IsBoundary cs (i + k) := by
  obtain ⟨xs, hxs, rfl⟩ := isBoundary_iff.mp hi
  obtain ⟨ys, hys, rfl⟩ := isBoundary_iff.mp hj
  -- The shorter of the two prefixes is a prefix of the longer one.
  have hprefix : xs <+: ys := by
    rcases List.prefix_or_prefix_of_prefix hxs hys with h | ⟨zs, rfl⟩
    · exact h
    · have hzs := length_le_length_encode zs
      rw [encode_append, List.length_append] at hle
      obtain rfl := List.length_eq_zero_iff.mp (show zs.length = 0 by omega)
      rw [List.append_nil]
  obtain ⟨ds, rfl⟩ := hprefix
  obtain ⟨zs, rfl⟩ := hys
  refine ⟨ds, ⟨xs, zs, rfl⟩, ?_, fun k hk => ?_⟩
  · rw [encode_append, encode_append, encode_append, List.append_assoc, List.drop_left,
      List.length_append, Nat.add_sub_cancel_left, List.take_left]
  · obtain ⟨es, ⟨fs, rfl⟩, rfl⟩ := isBoundary_iff.mp hk
    refine isBoundary_iff.mpr ⟨xs ++ es, ⟨fs ++ zs, by simp⟩, ?_⟩
    rw [encode_append, List.length_append]

/-- ASCII bytes are a text. -/
theorem exists_encode_of_ascii (h : ∀ b ∈ bs, b < 0x80) : ∃ cs, encode cs = bs := by
  induction bs with
  | nil => exact ⟨[], rfl⟩
  | cons b bs ih =>
    obtain ⟨cs, rfl⟩ := ih fun b hb => h b (List.mem_cons_of_mem _ hb)
    have hlt : b.toNat < 0x80 := UInt8.lt_iff_toNat_lt.mp (h b List.mem_cons_self)
    have hchar : ∀ n < 0x80, String.utf8EncodeChar (Char.ofNat n) = [UInt8.ofNat n] := by decide
    refine ⟨Char.ofNat b.toNat :: cs, ?_⟩
    rw [encode_cons, hchar _ hlt, UInt8.ofNat_toNat, List.singleton_append]

/-- An ASCII text has one byte for each character. -/
theorem length_encode_of_ascii (h : ∀ c ∈ cs, c.toNat ≤ 127) : (encode cs).length = cs.length := by
  induction cs with
  | nil => rfl
  | cons c cs ih =>
    have hc : c.utf8Size = 1 := by
      refine Char.utf8Size_eq_one_iff.mpr (UInt32.le_iff_toNat_le.mpr ?_)
      exact h c List.mem_cons_self
    rw [encode_cons, List.length_append, String.length_utf8EncodeChar, hc, List.length_cons,
      ih fun c hc => h c (List.mem_cons_of_mem _ hc), Nat.add_comm]

/-- In an ASCII text every offset is a boundary. -/
theorem isBoundary_of_ascii (h : ∀ c ∈ cs, c.toNat ≤ 127) (hi : i ≤ (encode cs).length) :
    IsBoundary cs i := by
  rw [length_encode_of_ascii h] at hi
  refine isBoundary_iff.mpr ⟨cs.take i, List.take_prefix i cs, ?_⟩
  rw [length_encode_of_ascii fun c hc => h c (List.mem_of_mem_take hc), List.length_take]
  exact Nat.min_eq_left hi

/-! ### Pieces -/

/-- The text that is left when every piece is decoded on its own. -/
def shown (pieces : List Bytes) : List Char := pieces.flatMap fun piece => (decode? piece).getD []

/-- A piece that decodes is shown, and any other piece is lost. -/
theorem length_encode_shown_le (pieces : List Bytes) :
    (encode (shown pieces)).length ≤ pieces.flatten.length := by
  induction pieces with
  | nil => simp [shown]
  | cons piece pieces ih =>
    have hle : (encode ((decode? piece).getD [])).length ≤ piece.length := by
      cases h : decode? piece with
      | none => simp
      | some ds => simp [decode?_eq_some.mp h]
    rw [shown, List.flatMap_cons, encode_append, List.length_append, List.flatten_cons,
      List.length_append]
    exact Nat.add_le_add hle ih

/-- Pieces that all decode are all shown. -/
theorem encode_shown (h : ∀ piece ∈ pieces, (decode? piece).isSome) :
    encode (shown pieces) = pieces.flatten := by
  induction pieces with
  | nil => rfl
  | cons piece pieces ih =>
    obtain ⟨ds, hds⟩ := Option.isSome_iff_exists.mp (h piece List.mem_cons_self)
    have htail := ih fun p hp => h p (List.mem_cons_of_mem _ hp)
    rw [shown, List.flatMap_cons, hds, Option.getD_some, encode_append, decode?_eq_some.mp hds,
      List.flatten_cons]
    exact congrArg _ htail

/-- The pieces show the whole text exactly if each of them decodes. -/
theorem shown_eq_iff (h : pieces.flatten = encode cs) :
    shown pieces = cs ↔ ∀ piece ∈ pieces, (decode? piece).isSome := by
  constructor
  · intro heq piece hmem
    by_contra hnone
    rw [Bool.not_eq_true, Option.isSome_eq_false_iff, Option.isNone_iff_eq_none] at hnone
    obtain ⟨xs, ys, rfl⟩ := List.append_of_mem hmem
    -- The lost piece has at least one byte, so what is shown is too short.
    have hne : piece ≠ [] := by
      rintro rfl
      rw [decode?_nil] at hnone
      cases hnone
    have hxs := length_encode_shown_le xs
    have hys := length_encode_shown_le ys
    have hpiece := List.length_pos_iff.mpr hne
    have hlen := congrArg (fun l => (encode l).length) heq
    rw [← h] at hlen
    simp only [shown, List.flatMap_append, List.flatMap_cons, hnone, Option.getD_none,
      List.nil_append, encode_append, List.length_append, List.flatten_append,
      List.flatten_cons] at hlen hxs hys
    omega
  · intro hsome
    refine encode_injective ?_
    rw [encode_shown hsome, h]

/-- Every piece decodes exactly if every cut between two pieces is at a boundary. -/
theorem decodes_iff (h : pieces.flatten = encode cs) :
    (∀ piece ∈ pieces, (decode? piece).isSome) ↔
      ∀ xs ys, pieces = xs ++ ys → IsBoundary cs xs.flatten.length := by
  constructor
  · rintro hsome xs ys rfl
    rw [List.flatten_append] at h
    exact (isBoundary_length_iff h).mpr
      ⟨_, encode_shown fun p hp => hsome p (List.mem_append_left _ hp)⟩
  · intro hcut piece hmem
    obtain ⟨xs, ys, rfl⟩ := List.append_of_mem hmem
    -- The piece lies between two prefixes that decode.
    have hfront := hcut xs (piece :: ys) rfl
    have hback := hcut (xs ++ [piece]) ys (by simp)
    have hsplit : xs.flatten ++ (piece ++ ys.flatten) = encode cs := by simpa using h
    have hsplit' : (xs.flatten ++ piece) ++ ys.flatten = encode cs := by simpa using h
    obtain ⟨ds, hds⟩ := (isBoundary_length_iff hsplit).mp hfront
    obtain ⟨es, hes⟩ := (isBoundary_length_iff hsplit').mp (by simpa using hback)
    rw [← hds] at hes
    obtain ⟨fs, -, hfs⟩ := exists_of_encode_eq_append hes
    exact isSome_decode?.mpr ⟨fs, hfs⟩

end Utf8
end TSubSpec.Lib
