import TSubSpec.Auth.Jwk

/-!
# `TSubSpec.Auth.KeySets`: arrays of keys

An array of JWKs should be accepted when all its keys are valid and one of them signs. `Decode`
puts the keys into a map before `Validate` counts them, and a key is lost when a later one has its
id. `oneSigningKey_iff` says for which arrays that makes no difference: always if the ids are
different, and not for two signing keys of one id (`accepts_twoSigningKeys`).
-/

set_option autoImplicit false

namespace TSubSpec.Auth

open TSubSpec.Lib

section

variable {Key Raw : Type} (jwk : Jwx Key Raw) (es : List (Entry Bytes (JwkInfo Key)))

/-- `Decode` followed by `Validate` succeeds, in every order of the loop. Which keys are accepted
does not depend on the order. -/
def Accepted (value : Bytes) : Prop :=
  ∃ keys, decode jwk value = .ok keys ∧ ∀ range, validate jwk range keys = .ok ()

/-- The keys of the array. The array is accepted if and only if all are valid and one signs, and
then that one is found in every order of the loop. -/
def OneSigningKey (value : Bytes) : Prop :=
  (Accepted jwk value ↔ (∀ e ∈ es, ValidKey jwk e.2) ∧ (es.countP fun e => signs jwk e.2) = 1) ∧
    (Accepted jwk value → ∀ cfg : JWTConfiguration Key, decode jwk value = .ok cfg.keys →
      ∀ range, ∃ e ∈ es, signs jwk e.2 = true ∧ getSigningJwk jwk range cfg = .ok e.2.privateKey)

/-- The number of keys that sign, among the entries as they stand in the array. -/
def signers : Nat := es.countP fun e => signs jwk e.2

/-- Keys that a later one replaces do not change the answer: the others are refused anyway, or one
of them signs and the replaced ones are valid and do not sign, or none of them signs and neither
would the replaced ones make the array good. -/
def HarmlessShadows : Prop :=
  (∃ e ∈ Dict.unshadowed es, ¬ValidKey jwk e.2) ∨
    2 ≤ signers jwk (Dict.unshadowed es) ∨
    (signers jwk (Dict.unshadowed es) = 1 ∧
      ∀ e ∈ Dict.shadowed es, ValidKey jwk e.2 ∧ signs jwk e.2 = false) ∨
    (signers jwk (Dict.unshadowed es) = 0 ∧
      ((∃ e ∈ Dict.shadowed es, ¬ValidKey jwk e.2) ∨ signers jwk (Dict.shadowed es) ≠ 1))

variable {jwk es} {value : Bytes} {data : List Json.Value}

/-- The map of an array. -/
theorem decode_array (harray : Json.parse (Utf8.runes value) = some (.array data))
    (hes : data.mapM (readEntry jwk) = .ok es) :
    decode jwk value = .ok (Dict.insertAll ∅ es) := by
  unfold decode unmarshalRaw
  rw [harray]
  exact foldlM_decodeKey hes

/-- An array is accepted exactly when the keys that remain are valid and one of them signs. -/
theorem accepted_iff (harray : Json.parse (Utf8.runes value) = some (.array data))
    (hes : data.mapM (readEntry jwk) = .ok es) :
    Accepted jwk value ↔
      (∀ e ∈ Dict.unshadowed es, ValidKey jwk e.2) ∧ signers jwk (Dict.unshadowed es) = 1 := by
  have hdecode := decode_array harray hes
  have hperm := Dict.entries_insertAll_empty es
  have hvalidate : ∀ range, validate jwk range (Dict.insertAll ∅ es) = .ok () ↔
      (∀ e ∈ Dict.unshadowed es, ValidKey jwk e.2) ∧ signers jwk (Dict.unshadowed es) = 1 := by
    intro range
    rw [validate_eq_ok_iff, hperm.countP_eq]
    simp only [hperm.mem_iff]
    rfl
  constructor
  · rintro ⟨keys, hkeys, haccept⟩
    cases hdecode.symm.trans hkeys
    exact (hvalidate ⟨AList.entries, fun _ => .refl _⟩).mp (haccept _)
  · intro h
    exact ⟨_, hdecode, fun range => (hvalidate range).mpr h⟩

/-- All keys are valid when those that remain and those that are replaced are. -/
theorem forall_valid_iff (jwk : Jwx Key Raw) (es : List (Entry Bytes (JwkInfo Key))) :
    (∀ e ∈ es, ValidKey jwk e.2) ↔
      (∀ e ∈ Dict.unshadowed es, ValidKey jwk e.2) ∧
        ∀ e ∈ Dict.shadowed es, ValidKey jwk e.2 := by
  simp only [Dict.mem_iff_shadowed es, or_imp, forall_and]

/-- The signing keys are those under the first entry of an identifier and those under later ones. -/
theorem signers_eq (jwk : Jwx Key Raw) (es : List (Entry Bytes (JwkInfo Key))) :
    signers jwk es = signers jwk (Dict.unshadowed es) + signers jwk (Dict.shadowed es) :=
  Dict.countP_eq_shadowed

/-- There is no signing key exactly if no entry has one. -/
theorem signers_eq_zero_iff : signers jwk es = 0 ↔ ∀ e ∈ es, signs jwk e.2 = false := by
  rw [signers, List.countP_eq_zero]
  simp

/-- An invalid key is there exactly if not all keys are valid. -/
theorem exists_invalid_iff :
    (∃ e ∈ es, ¬ValidKey jwk e.2) ↔ ¬∀ e ∈ es, ValidKey jwk e.2 := by simp

/-- All entries are valid keys that do not sign exactly if all are valid and none signs. -/
theorem forall_harmless_iff : (∀ e ∈ es, ValidKey jwk e.2 ∧ signs jwk e.2 = false) ↔
    (∀ e ∈ es, ValidKey jwk e.2) ∧ signers jwk es = 0 := by
  rw [signers_eq_zero_iff]
  simp only [imp_and, forall_and]

/-- An array is accepted if and only if all its keys are valid and one signs, exactly when the
replaced keys do not matter. -/
theorem harmlessShadows_iff : HarmlessShadows jwk es ↔
    (((∀ e ∈ Dict.unshadowed es, ValidKey jwk e.2) ∧ signers jwk (Dict.unshadowed es) = 1) ↔
      (∀ e ∈ es, ValidKey jwk e.2) ∧ signers jwk es = 1) := by
  have hforall := forall_valid_iff jwk es
  have hcount := signers_eq jwk es
  rw [HarmlessShadows, forall_harmless_iff, exists_invalid_iff, exists_invalid_iff, hforall, hcount]
  generalize (∀ e ∈ Dict.unshadowed es, ValidKey jwk e.2) = V
  generalize (∀ e ∈ Dict.shadowed es, ValidKey jwk e.2) = S
  generalize signers jwk (Dict.unshadowed es) = v
  generalize signers jwk (Dict.shadowed es) = s
  by_cases hV : V
  · by_cases hS : S
    · simp only [hV, hS, true_and, not_true_eq_false, false_or]
      omega
    · simp only [hV, hS, true_and, false_and, and_false, not_true_eq_false, false_or, iff_false,
        not_false_eq_true, true_or, and_true]
      omega
  · simp [hV]

end

/-- For every array of JWKs, each with a public key: the array is accepted exactly when all its keys
are valid and one signs, and that one is found, if and only if the replaced keys do not matter. A
key is replaced when a later one has its id, and only the last one is looked at. -/
theorem oneSigningKey_iff {Key Raw : Type} {jwk : Jwx Key Raw} {value : Bytes}
    {data : List Json.Value} {es : List (Entry Bytes (JwkInfo Key))}
    (harray : Json.parse (Utf8.runes value) = some (.array data))
    (hes : data.mapM (readEntry jwk) = .ok es) :
    OneSigningKey jwk es value ↔ HarmlessShadows jwk es := by
  have haccepted := accepted_iff harray hes
  rw [harmlessShadows_iff, ← haccepted]
  refine ⟨fun h => h.1, fun h => ⟨h, fun haccept cfg hcfg range => ?_⟩⟩
  -- The key that signs is one of those in the map.
  have hone := (haccepted.mp haccept).2
  have hperm := Dict.entries_insertAll_empty es
  have hkeys : cfg.keys = Dict.insertAll ∅ es :=
    Except.ok.inj (hcfg.symm.trans (decode_array harray hes))
  rw [← hkeys] at hperm
  have hcount : (cfg.keys.entries.countP fun e => signs jwk e.2) = 1 := by
    rw [hperm.countP_eq]
    exact hone
  obtain ⟨e, he, hsigns⟩ := List.countP_pos_iff.mp (hcount ▸ Nat.one_pos)
  exact ⟨e, (Dict.mem_iff_shadowed es).mpr (.inl (hperm.mem_iff.mp he)), hsigns,
    getSigningJwk_eq_ok he hsigns hcount⟩

/-- The text of a signing key with the id `1`. -/
def signingKeyText (modulus : String) : Bytes :=
  ascii "\x7b\"kty\":\"RSA\",\"n\":\"" ++ ascii modulus ++
    ascii "\",\"e\":\"AQAB\",\"d\":\"FjJo\",\"kid\":\"1\",\"key_ops\":[\"sign\"]\x7d"

/-- The entry that it makes. -/
def signingEntry (modulus : String) : Entry Bytes (JwkInfo ExampleKey) :=
  ⟨ascii "1", some ⟨.rsa, ascii modulus, false, ascii "1", [], ascii "sig", [ascii "verify"]⟩,
    ⟨.rsa, ascii modulus, true, ascii "1", [], [], [ascii "sign"]⟩⟩

/-- An array whose entries are computed. -/
theorem exists_array {value : Bytes} {es : List (Entry Bytes (JwkInfo ExampleKey))}
    (h : (match Json.parse (Utf8.runes value) with
      | some (.array data) => decide (data.mapM (readEntry exampleJwx) = .ok es)
      | _ => false) = true) :
    ∃ data, Json.parse (Utf8.runes value) = some (.array data) ∧
      data.mapM (readEntry exampleJwx) = .ok es := by
  split at h
  · next data hdata => exact ⟨data, hdata, of_decide_eq_true h⟩
  · cases h

/-- An array of one signing key. -/
def oneKey : Bytes := ascii "[" ++ signingKeyText "4slQ" ++ ascii "]"

/-- One signing key alone: it replaces none, so it is accepted and found. -/
theorem oneSigningKey_iff_oneKey :
    OneSigningKey exampleJwx [signingEntry "4slQ"] oneKey := by
  obtain ⟨data, harray, hes⟩ := @exists_array oneKey [signingEntry "4slQ"] (by decide +kernel)
  have hshadowed : Dict.shadowed [signingEntry "4slQ"] = [] := by decide +kernel
  refine (oneSigningKey_iff harray hes).mpr (.inr (.inr (.inl ⟨by decide +kernel, ?_⟩)))
  rw [hshadowed]
  exact nofun

/-- An array of two signing keys that have the same id. -/
def twoKeys : Bytes :=
  ascii "[" ++ signingKeyText "4slQ" ++ ascii "," ++ signingKeyText "9Gwb" ++ ascii "]"

/-- Two signing keys of one id are accepted: the second one replaces the first before they are
counted. -/
theorem accepts_twoSigningKeys : ∃ data es,
    Json.parse (Utf8.runes twoKeys) = some (.array data) ∧
      data.mapM (readEntry exampleJwx) = .ok es ∧ ¬OneSigningKey exampleJwx es twoKeys := by
  obtain ⟨data, harray, hes⟩ := @exists_array twoKeys [signingEntry "4slQ", signingEntry "9Gwb"]
    (by decide +kernel)
  refine ⟨data, _, harray, hes, fun h => ?_⟩
  have hunshadowed : Dict.unshadowed [signingEntry "4slQ", signingEntry "9Gwb"] =
      [signingEntry "9Gwb"] := by decide +kernel
  have haccepted : Accepted exampleJwx twoKeys := by
    refine (accepted_iff harray hes).mpr ?_
    rw [hunshadowed]
    refine ⟨?_, by decide +kernel⟩
    intro e he
    cases List.mem_singleton.mp he
    refine ⟨by decide +kernel, ?_⟩
    rintro k ⟨⟩
    decide +kernel
  have htwo : signers exampleJwx [signingEntry "4slQ", signingEntry "9Gwb"] = 2 := by decide +kernel
  have hone := (h.1.mp haccepted).2
  exact absurd (htwo.symm.trans hone) (by decide)

end TSubSpec.Auth
