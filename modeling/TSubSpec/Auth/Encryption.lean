import TSubSpec.Auth.Loading
import TSubSpec.Lib.Base64

/-!
# `TSubSpec.Auth.Encryption`: the keys for the columns of the database

`DatabaseEncryptionConfiguration.Validate` says that the encryption key must also be present in
the decryption keys. It looks for an entry under the ID of the key, and does not compare the entry
with the key. `validate_ok` is what an accepted configuration satisfies: all keys have 256 bits.

`validate_readable_iff` says what is missing. The decoder is the one of the standard library, so
two texts stand for one key exactly when their symbols differ in dropped bits only.
-/

set_option autoImplicit false

namespace TSubSpec.Auth

open TSubSpec.Lib

section

variable {T : Types} {lib : Libraries T} {ranges : Ranges T} {c : DatabaseEncryptionConfiguration}

/-- A text of a key with 256 bits. -/
def IsKey (lib : Libraries T) (text : Bytes) : Prop :=
  ∃ key, lib.decodeBase64URL text = .ok key ∧ key.length = 32

/-- What is encrypted can be decrypted: the entry of the active key is that key, and all entries
are keys. -/
structure DatabaseEncryptionConfiguration.Readable (lib : Libraries T)
    (c : DatabaseEncryptionConfiguration) : Prop where
  active : ∃ key text, lib.decodeBase64URL c.encryptionKey = .ok key ∧ key.length = 32 ∧
    c.decryptionKeys.lookup c.encryptionKeyID = some text ∧ lib.decodeBase64URL text = .ok key
  keys : ∀ e ∈ c.decryptionKeys.entries, IsKey lib e.2

/-- A check that is passed. -/
theorem of_check {ε α : Type} {failed : Prop} [Decidable failed] {err : ε}
    {next : Unit → Except ε α} {a : α}
    (h : (if failed then throw err >>= next else next ()) = .ok a) :
    ¬ failed ∧ next () = .ok a := by
  by_cases hfailed : failed
  · rw [if_pos hfailed] at h
    cases h
  · rw [if_neg hfailed] at h
    exact ⟨hfailed, h⟩

/-- The loop accepts keys only. -/
theorem of_validateDecryptionKeys {es : List (Entry Bytes Bytes)}
    (h : validateDecryptionKeys lib es = .ok ()) : ∀ e ∈ es, IsKey lib e.2 := by
  induction es with
  | nil => simp
  | cons e es ih =>
    obtain ⟨id, text⟩ := e
    rw [validateDecryptionKeys] at h
    obtain ⟨key, hkey, h⟩ := exists_of_bind_eq_ok h
    obtain ⟨hlength, h⟩ := of_check h
    exact List.forall_mem_cons.mpr ⟨⟨key, hkey, not_not.mp hlength⟩, ih h⟩

/-- What an accepted configuration satisfies if it encrypts. -/
theorem DatabaseEncryptionConfiguration.validate_ok (h : c.validate lib ranges = .ok ())
    (hencrypt : c.encrypt = true) :
    IsKey lib c.encryptionKey ∧
      (∃ text ≠ [], c.decryptionKeys.lookup c.encryptionKeyID = some text) ∧
      ∀ e ∈ c.decryptionKeys.entries, IsKey lib e.2 := by
  rw [DatabaseEncryptionConfiguration.validate] at h
  rw [if_pos hencrypt] at h
  obtain ⟨-, h⟩ := of_check h
  obtain ⟨key, hkey, h⟩ := exists_of_bind_eq_ok h
  obtain ⟨hlength, h⟩ := of_check h
  obtain ⟨hpresent, h⟩ := of_check h
  refine ⟨⟨key, hkey, not_not.mp hlength⟩, ?_, ?_⟩
  · cases hlookup : c.decryptionKeys.lookup c.encryptionKeyID with
    | none => exact absurd (by rw [hlookup]; rfl) hpresent
    | some text =>
      rw [hlookup] at hpresent
      exact ⟨text, hpresent, rfl⟩
  · -- The loop visits the entries in any order, but it visits all of them.
    have hkeys := of_validateDecryptionKeys h
    exact fun e he => hkeys e ((ranges.decryptionKeys.perm _).mem_iff.mpr he)

/-- The library decodes as `Base64.decode` does. -/
def DecodesBase64URL (lib : Libraries T) : Prop :=
  ∀ text key, lib.decodeBase64URL text = .ok key ↔ Base64.decode text = some key

/-- The texts are the same, apart from line breaks and from the bits of the last character that
are dropped. -/
def SameKeyText (text text' : Bytes) : Prop :=
  (Base64.symbols text).map Base64.canonical = (Base64.symbols text').map Base64.canonical

instance (text text' : Bytes) : Decidable (SameKeyText text text') :=
  inferInstanceAs (Decidable (_ = _))

/-- An accepted configuration that encrypts keeps the data readable exactly when the entry of the
active key has the text of the key. The decoder skips line ends and ignores the loose low bits of
the last character, so two texts can be one key. -/
theorem validate_readable_iff (hlib : DecodesBase64URL lib) (h : c.validate lib ranges = .ok ())
    (hencrypt : c.encrypt = true) :
    c.Readable lib ↔ ∀ text, c.decryptionKeys.lookup c.encryptionKeyID = some text →
      SameKeyText c.encryptionKey text := by
  obtain ⟨⟨key, hkey, hlength⟩, ⟨text, -, hlookup⟩, hkeys⟩ :=
    DatabaseEncryptionConfiguration.validate_ok h hencrypt
  constructor
  · rintro ⟨⟨key', text', hkey', -, hlookup', htext'⟩, -⟩ text hlookup
    obtain rfl := Option.some.inj (hlookup'.symm.trans hlookup)
    exact (Base64.decode_eq_iff ((hlib _ _).mp hkey') ((hlib _ _).mp htext')).mp rfl
  · intro hsame
    -- All entries are keys by the check, so only the active one is left.
    obtain ⟨key', htext, -⟩ := hkeys _ (AList.mem_lookup_iff.mp hlookup)
    have heq : key = key' := (Base64.decode_eq_iff ((hlib _ _).mp hkey) ((hlib _ _).mp htext)).mpr
      (hsame text hlookup)
    exact ⟨⟨key, text, hkey, hlength, hlookup, heq ▸ htext⟩, hkeys⟩

end

/-- The libraries of the examples, with the decoder of the standard library. -/
def encryptionLibraries : Libraries exampleTypes :=
  { exampleLibraries with
    decodeBase64URL := fun text => match Base64.decode text with
      | some key => .ok key
      | none => .error (ascii "illegal base64 data") }

/-- The library of the runs below decodes as the package does. -/
theorem decodesBase64URL_encryptionLibraries : DecodesBase64URL encryptionLibraries := by
  intro text key
  simp only [encryptionLibraries]
  cases Base64.decode text <;> simp

/-- A configuration that encrypts with one key, and has this entry for it. -/
def exampleEncryption (key entry : Bytes) : DatabaseEncryptionConfiguration where
  encrypt := true
  encryptionKeyID := ascii "keyid"
  encryptionKey := key
  decryptionKeys := AList.insert (ascii "keyid") entry ∅

/-- The key of 256 zero bits. -/
def zeroKey : Bytes := List.replicate 43 0x41

/-- A key of zeros, and the same key behind a line end: the data stays readable. -/
theorem validate_readable_zeroKey :
    (exampleEncryption zeroKey (zeroKey ++ [0x0a])).Readable encryptionLibraries :=
  (validate_readable_iff decodesBase64URL_encryptionLibraries
    (by decide +kernel : DatabaseEncryptionConfiguration.validate _ Ranges.default _ = .ok ())
    rfl).mpr (by
      intro text htext
      obtain rfl := Option.some.inj htext
      decide +kernel)

/-- An entry that is another key is accepted, as long as it is under the right id. -/
theorem not_validate_readable :
    ¬ ∀ (T : Types) (lib : Libraries T) (ranges : Ranges T) (c : DatabaseEncryptionConfiguration),
      DecodesBase64URL lib → c.validate lib ranges = .ok () → c.encrypt = true →
        c.Readable lib := by
  intro hall
  have hreadable := hall _ encryptionLibraries .default
    (exampleEncryption zeroKey (List.replicate 43 0x42)) decodesBase64URL_encryptionLibraries
    (by decide +kernel) rfl
  obtain ⟨key, text, hkey, -, hlookup, htext⟩ := hreadable.active
  obtain rfl := Option.some.inj hlookup
  have hdifferent : encryptionLibraries.decodeBase64URL zeroKey ≠
      encryptionLibraries.decodeBase64URL (List.replicate 43 0x42) := by decide +kernel
  exact hdifferent (hkey.trans htext.symm)

end TSubSpec.Auth
