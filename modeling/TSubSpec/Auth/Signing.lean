import TSubSpec.Auth.KeySets
import TSubSpec.Auth.Loading

/-!
# `TSubSpec.Auth.Signing`: the server verifies what it signs

A token is signed with a private key and the method that `getSigningAlg` reads from it. To verify
the token the server takes the methods of `ValidMethods` and the key that `findPublicKeyByKid`
finds. `verifies_of_accepted` says that both agree with the signing key, whatever the keys are.

The method is one for keys of that type if the member `alg` says so. `getSigningAlg` knows five
names, and takes HS256 for all others, so for an RSA key without one of those it returns a method
for secrets (`rsa_signs_with_HS256`).
-/

set_option autoImplicit false

namespace TSubSpec.Auth

open TSubSpec.Lib

/-- The id of a key after a parameter is set. -/
def Param.keyIDAfter : Param → Bytes → Bytes
  | .keyID kid, _ => kid
  | _, old => old

/-- The algorithm of a key after a parameter is set. -/
def Param.algorithmAfter : Param → Bytes → Bytes
  | .algorithm alg, _ => alg
  | _, old => old

/-- What the package `jwk` says about its functions: a parameter that is set changes nothing else,
the public half has the parameters of the key, and bytes make a symmetric key without parameters. -/
structure Jwx.Lawful {Key Raw : Type} (jwk : Jwx Key Raw) : Prop where
  /-- Setting a parameter changes nothing else. -/
  of_set : ∀ {k k' : Key} {param : Param}, jwk.set k param = .ok k' →
    jwk.keyType k' = jwk.keyType k ∧ jwk.raw k' = jwk.raw k ∧
      jwk.keyID k' = param.keyIDAfter (jwk.keyID k) ∧
      jwk.algorithm k' = param.algorithmAfter (jwk.algorithm k)
  /-- The public half has the parameters of the key. That of a symmetric key is the key. -/
  of_publicKeyOf : ∀ {k pub : Key}, jwk.publicKeyOf k = .ok pub →
    jwk.keyID pub = jwk.keyID k ∧ jwk.algorithm pub = jwk.algorithm k ∧
      (jwk.keyType k = .oct → jwk.raw pub = jwk.raw k)
  /-- Bytes make a symmetric key without parameters. -/
  of_fromRaw : ∀ {secret : Bytes} {k : Key}, jwk.fromRaw secret = .ok k →
    jwk.keyType k = .oct ∧ jwk.keyID k = [] ∧ jwk.algorithm k = [] ∧
      jwk.raw k = .ok (.inl secret)

section

variable {Key Raw : Type} (jwk : Jwx Key Raw)

/-- The raw value of the public half of a key. The package has an error where it cannot give one. -/
def publicHalf (k : Key) : Except Bytes (Bytes ⊕ Raw) := do jwk.raw (← jwk.publicKeyOf k)

/-- The member `alg` names a method for keys of this type, of those that `getSigningAlg` knows. For
a symmetric key it does not name one of another type. -/
def FittingAlgorithm (k : Key) : Prop :=
  match jwk.keyType k with
  | .oct => jwk.algorithm k ∉
    [ascii "RS256", ascii "RS512", ascii "ES256", ascii "ES512", ascii "EdDSA"]
  | .rsa => jwk.algorithm k ∈ [ascii "RS256", ascii "RS512"]
  | .ec => jwk.algorithm k ∈ [ascii "ES256", ascii "ES512"]
  | .okp => jwk.algorithm k = ascii "EdDSA"

/-- The entry of a key: its id, and its public half with the parameters of the key. -/
structure Paired (e : Entry Bytes (JwkInfo Key)) (publicKey : Key) : Prop where
  publicKey_eq : e.2.publicKey = some publicKey
  kid_eq : e.1 = jwk.keyID e.2.privateKey
  algorithm_eq : jwk.algorithm publicKey = jwk.algorithm e.2.privateKey
  raw_eq : ∃ pub, jwk.publicKeyOf e.2.privateKey = .ok pub ∧ jwk.raw publicKey = jwk.raw pub

variable {jwk} {k : Key}

/-- The method is one for keys of the type exactly when the member `alg` fits. -/
theorem keyType_getSigningAlg_iff :
    (getSigningAlg jwk (some k)).keyType = jwk.keyType k ↔ FittingAlgorithm jwk k := by
  unfold getSigningAlg FittingAlgorithm
  dsimp only
  generalize jwk.algorithm k = alg
  generalize jwk.keyType k = kty
  by_cases hRS256 : alg = ascii "RS256"
  · subst hRS256
    cases kty
    all_goals decide
  by_cases hRS512 : alg = ascii "RS512"
  · subst hRS512
    cases kty
    all_goals decide
  by_cases hES256 : alg = ascii "ES256"
  · subst hES256
    cases kty
    all_goals decide
  by_cases hES512 : alg = ascii "ES512"
  · subst hES512
    cases kty
    all_goals decide
  by_cases hEdDSA : alg = ascii "EdDSA"
  · subst hEdDSA
    cases kty
    all_goals decide
  · -- No name is known, so the method is HS256.
    rw [if_neg hRS256, if_neg hRS512, if_neg hES256, if_neg hES512, if_neg hEdDSA]
    cases kty
    all_goals simp [SigningMethod.keyType, hRS256, hRS512, hES256, hES512, hEdDSA]

/-- An entry that was read has the public half of the key it was read from. -/
theorem paired_of_readEntry (hjwk : jwk.Lawful) {key : Json.Value} {e : Entry Bytes (JwkInfo Key)}
    (h : readEntry jwk key = .ok e) : ∃ publicKey, Paired jwk e publicKey := by
  obtain ⟨privJwk, -, h⟩ := exists_of_bind_eq_ok h
  obtain ⟨pub, hpub, h⟩ := exists_of_bind_eq_ok h
  obtain ⟨pub', hpub', h⟩ := exists_of_bind_eq_ok h
  obtain ⟨pub'', hpub'', h⟩ := exists_of_bind_eq_ok h
  cases h
  obtain ⟨hkid, halg, -⟩ := hjwk.of_publicKeyOf hpub
  obtain ⟨-, hraw', hkid', halg'⟩ := hjwk.of_set hpub'
  obtain ⟨-, hraw'', hkid'', halg''⟩ := hjwk.of_set hpub''
  exact ⟨pub'', rfl, hkid''.trans (hkid'.trans hkid), halg''.trans (halg'.trans halg), pub, hpub,
    hraw''.trans hraw'⟩

/-- Reading further keys keeps the entries paired. -/
theorem paired_of_foldlM (hjwk : jwk.Lawful) {data : List Json.Value}
    {config keys : JwtKeysDecoder Key}
    (hconfig : ∀ e ∈ config.entries, ∃ publicKey, Paired jwk e publicKey)
    (h : data.foldlM (decodeKey jwk) config = .ok keys) :
    ∀ e ∈ keys.entries, ∃ publicKey, Paired jwk e publicKey := by
  induction data generalizing config with
  | nil =>
    cases h
    exact hconfig
  | cons key data ih =>
    rw [List.foldlM_cons] at h
    obtain ⟨config', hkey, h⟩ := exists_of_bind_eq_ok h
    rw [decodeKey_eq] at hkey
    cases hread : readEntry jwk key with
    | error text =>
      rw [hread] at hkey
      cases hkey
    | ok e =>
      rw [hread] at hkey
      cases hkey
      refine ih (fun e' he' => ?_) h
      rw [AList.entries_insert] at he'
      -- The entry that was just read, or an earlier one that has another kid.
      rcases List.mem_cons.mp he' with rfl | he'
      · exact paired_of_readEntry hjwk hread
      · exact hconfig e' ((List.kerase_sublist _ _).subset he')

/-- All keys of an array are paired. -/
theorem paired_of_decode (hjwk : jwk.Lawful) {value : Bytes} {keys : JwtKeysDecoder Key}
    (h : decode jwk value = .ok keys) :
    ∀ e ∈ keys.entries, ∃ publicKey, Paired jwk e publicKey := by
  obtain ⟨data, -, h⟩ := exists_of_bind_eq_ok h
  have hempty : ∀ e ∈ (∅ : JwtKeysDecoder Key).entries, ∃ publicKey, Paired jwk e publicKey := nofun
  exact paired_of_foldlM hjwk hempty h

end

section

variable {T : Types} {lib : Libraries T} {ranges : Ranges T}

/-- A key that is set under a condition. -/
theorem of_setIf (hjwk : lib.jwk.Lawful) {cond : Prop} [Decidable cond] {k k' : T.Key}
    {param : Param} (h : setIf lib cond k param = .ok k') :
    lib.jwk.keyType k' = lib.jwk.keyType k ∧ lib.jwk.raw k' = lib.jwk.raw k ∧
      lib.jwk.keyID k' = (if cond then param.keyIDAfter (lib.jwk.keyID k) else lib.jwk.keyID k) ∧
      lib.jwk.algorithm k' =
        (if cond then param.algorithmAfter (lib.jwk.algorithm k) else lib.jwk.algorithm k) := by
  unfold setIf at h
  by_cases hcond : cond
  · rw [if_pos hcond] at h
    rw [if_pos hcond, if_pos hcond]
    exact hjwk.of_set h
  · rw [if_neg hcond] at h
    cases h
    rw [if_neg hcond, if_neg hcond]
    exact ⟨rfl, rfl, rfl, rfl⟩

/-- The entry that the secret makes. Its key is symmetric, with the method HS256. -/
theorem of_applyDefaultsJWT (hjwk : lib.jwk.Lawful) {cfg cfg' : JWTConfiguration T.Key}
    {secret : Bytes} (h : applyDefaultsJWT lib cfg secret = .ok cfg') :
    ∃ info publicKey, cfg' = { cfg with keys := AList.insert cfg.keyID info ∅ } ∧
      Paired lib.jwk ⟨cfg.keyID, info⟩ publicKey ∧ lib.jwk.keyType info.privateKey = .oct ∧
      lib.jwk.algorithm info.privateKey = ascii "HS256" ∧
      lib.jwk.raw info.privateKey = .ok (.inl secret) := by
  obtain ⟨k, hk, h⟩ := exists_of_bind_eq_ok h
  obtain ⟨k₁, hk₁, h⟩ := exists_of_bind_eq_ok h
  obtain ⟨k₂, hk₂, h⟩ := exists_of_bind_eq_ok h
  obtain ⟨k₃, hk₃, h⟩ := exists_of_bind_eq_ok h
  obtain ⟨k₄, hk₄, h⟩ := exists_of_bind_eq_ok h
  obtain ⟨pub, hpub, h⟩ := exists_of_bind_eq_ok h
  cases h
  obtain ⟨htype, hkid, halg, hraw⟩ := hjwk.of_fromRaw hk
  obtain ⟨htype₁, hraw₁, hkid₁, halg₁⟩ := of_setIf hjwk hk₁
  obtain ⟨htype₂, hraw₂, hkid₂, halg₂⟩ := of_setIf hjwk hk₂
  obtain ⟨htype₃, hraw₃, hkid₃, halg₃⟩ := hjwk.of_set hk₃
  obtain ⟨htype₄, hraw₄, hkid₄, halg₄⟩ := of_setIf hjwk hk₄
  obtain ⟨hkidP, halgP, hrawP⟩ := hjwk.of_publicKeyOf hpub
  -- Only the first of the four settings is about the id, and only the second about the method.
  have hkidK : lib.jwk.keyID k₄ = cfg.keyID := by
    have hkid₁' : lib.jwk.keyID k₁ = cfg.keyID := by
      rw [hkid₁]
      by_cases hempty : cfg.keyID = []
      · rw [if_neg (not_not.mpr hempty), hkid, hempty]
      · rw [if_pos hempty]
        rfl
    rw [hkid₄, hkid₃, hkid₂]
    simp only [Param.keyIDAfter, ite_self]
    exact hkid₁'
  have halgK : lib.jwk.algorithm k₄ = ascii "HS256" := by
    have halg₁' : lib.jwk.algorithm k₁ = [] := by
      rw [halg₁]
      simp only [Param.algorithmAfter, ite_self]
      exact halg
    rw [halg₄, halg₃, halg₂, if_pos halg₁']
    simp only [Param.algorithmAfter, ite_self]
    rfl
  have hrawK : lib.jwk.raw k₄ = .ok (.inl secret) :=
    hraw₄.trans (hraw₃.trans (hraw₂.trans (hraw₁.trans hraw)))
  have htypeK : lib.jwk.keyType k₄ = .oct :=
    htype₄.trans (htype₃.trans (htype₂.trans (htype₁.trans htype)))
  exact ⟨⟨some pub, k₄⟩, pub, rfl, ⟨rfl, hkidK.symm, halgP, pub, hpub, rfl⟩, htypeK, halgK, hrawK⟩

/-- The server verifies what it signs with the key. The package has no raw value for some keys: then
the search for the public half returns its error. -/
structure VerifiesSigned (lib : Libraries T) (cfg : JWTConfiguration T.Key) (k : T.Key) : Prop where
  keyType_iff :
    (getSigningAlg lib.jwk (some k)).keyType = lib.jwk.keyType k ↔ FittingAlgorithm lib.jwk k
  mem_validMethods : ∃ methods, cfg.validMethods = some methods ∧
    (getSigningAlg lib.jwk (some k)).alg ∈ methods
  found : ∀ value, publicHalf lib.jwk k = .ok value →
    findPublicKeyByKid lib.jwk (lib.jwk.keyID k) cfg = .ok (some value)
  found_secret : lib.jwk.keyType k = .oct → ∀ value, lib.jwk.raw k = .ok value →
    findPublicKeyByKid lib.jwk (lib.jwk.keyID k) cfg = .ok (some value)
  not_found : ∀ text, publicHalf lib.jwk k = .error text →
    findPublicKeyByKid lib.jwk (lib.jwk.keyID k) cfg = .error (.error text)

/-- The key is made from the secret, and the secret verifies what it signs. -/
structure SignsWithSecret (lib : Libraries T) (cfg : JWTConfiguration T.Key) (k : T.Key) :
    Prop where
  alg_eq : getSigningAlg lib.jwk (some k) = .HS256
  keyType_eq : lib.jwk.keyType k = .oct
  found : findPublicKeyByKid lib.jwk (lib.jwk.keyID k) cfg = .ok (some (.inl cfg.secret))

/-- Without preset methods, those of the keys are valid. -/
theorem validMethodsDefault_of_none {cfg : JWTConfiguration T.Key} (h : cfg.validMethods = none) :
    validMethodsDefault lib ranges cfg =
      { cfg with validMethods := some ((ranges.validMethods.visit cfg.keys).map
          fun entry => (getSigningAlg lib.jwk entry.2.publicKey).alg) } := by
  unfold validMethodsDefault
  rw [h]

/-- The keys are those of the array, or the one that the secret makes. -/
theorem of_keysDefault (hjwk : lib.jwk.Lawful) {cfg cfg' : JWTConfiguration T.Key}
    (hkeys : cfg.keys = ∅ ∨ ∃ value, decode lib.jwk value = .ok cfg.keys)
    (h : keysDefault lib cfg = .ok cfg') :
    cfg'.validMethods = cfg.validMethods ∧ cfg'.secret = cfg.secret ∧
      (∀ e ∈ cfg'.keys.entries, ∃ publicKey, Paired lib.jwk e publicKey) ∧
      (cfg.keys = ∅ → ∀ e ∈ cfg'.keys.entries, lib.jwk.keyType e.2.privateKey = .oct ∧
        lib.jwk.algorithm e.2.privateKey = ascii "HS256" ∧
        lib.jwk.raw e.2.privateKey = .ok (.inl cfg.secret)) := by
  unfold keysDefault at h
  split at h
  · -- The key is made from the secret.
    obtain ⟨info, publicKey, rfl, hpaired, hmade⟩ := of_applyDefaultsJWT hjwk h
    have hentry : ∀ e ∈ (AList.insert cfg.keyID info ∅ : JwtKeysDecoder T.Key).entries,
        e = ⟨cfg.keyID, info⟩ := by
      intro e he
      rw [AList.entries_insert] at he
      simpa using he
    refine ⟨rfl, rfl, fun e he => ?_, fun _ e he => ?_⟩
    · rw [hentry e he]
      exact ⟨publicKey, hpaired⟩
    · rw [hentry e he]
      exact hmade
  · next hlength =>
    cases h
    refine ⟨rfl, rfl, ?_, fun hempty => ?_⟩
    · rcases hkeys with hempty | ⟨value, hdecode⟩
      · rw [hempty]
        exact nofun
      · exact paired_of_decode hjwk hdecode
    · rw [hempty] at hlength
      exact absurd rfl hlength

/-- The keys after the defaults, and the methods of their public halves. -/
theorem of_jwtDefaults (hjwk : lib.jwk.Lawful) {cfg cfg' : JWTConfiguration T.Key}
    (hpreset : cfg.validMethods = none)
    (hkeys : cfg.keys = ∅ ∨ ∃ value, decode lib.jwk value = .ok cfg.keys)
    (h : jwtDefaults lib ranges cfg = .ok cfg') :
    (∀ e ∈ cfg'.keys.entries, ∃ publicKey, Paired lib.jwk e publicKey) ∧
      cfg'.validMethods = some ((ranges.validMethods.visit cfg'.keys).map
        fun entry => (getSigningAlg lib.jwk entry.2.publicKey).alg) ∧
      (cfg.keys = ∅ → ∀ e ∈ cfg'.keys.entries, lib.jwk.keyType e.2.privateKey = .oct ∧
        lib.jwk.algorithm e.2.privateKey = ascii "HS256" ∧
        lib.jwk.raw e.2.privateKey = .ok (.inl cfg'.secret)) := by
  unfold jwtDefaults at h
  cases hdefault : keysDefault lib (adminDefaults cfg) with
  | error text =>
    rw [hdefault] at h
    cases h
  | ok cfg₁ =>
    rw [hdefault] at h
    have hkeys' : (adminDefaults cfg).keys = ∅ ∨
        ∃ value, decode lib.jwk value = .ok (adminDefaults cfg).keys := hkeys
    obtain ⟨hmethods, hsecret, hpaired, hmade⟩ := of_keysDefault hjwk hkeys' hdefault
    cases h
    rw [validMethodsDefault_of_none (hmethods.trans hpreset)]
    refine ⟨hpaired, rfl, fun hempty e he => ?_⟩
    rw [hsecret]
    exact hmade hempty e he

end

/-- For every configuration that the defaults and the checks accept, without preset methods, with
keys from an array or from the secret: the method of the signing key is valid, and its id leads to
its public half whenever the package gives the raw value of that, and to its error else. The method
is one for keys of its type exactly when the member `alg` fits, and always if the key is made from
the secret. -/
theorem verifies_of_accepted {T : Types} {lib : Libraries T} {ranges : Ranges T}
    {range : Dict.Iteration Bytes (JwkInfo T.Key)} {c c₁ c₂ : GlobalConfiguration T} {k : T.Key}
    (hjwk : lib.jwk.Lawful) (hpreset : c.jwt.validMethods = none)
    (hkeys : c.jwt.keys = ∅ ∨ ∃ value, decode lib.jwk value = .ok c.jwt.keys)
    (hdefaults : applyDefaults lib ranges c = .ok c₁) (hvalidate : c₁.validate lib ranges = .ok c₂)
    (hk : getSigningJwk lib.jwk range c₂.jwt = .ok k) :
    VerifiesSigned lib c₂.jwt k ∧ (c.jwt.keys = ∅ → SignsWithSecret lib c₂.jwt k) := by
  obtain ⟨-, hjwt⟩ := of_applyDefaults hdefaults
  obtain ⟨-, hsame, -, -⟩ := GlobalConfiguration.of_validate hvalidate
  rw [← hsame] at hjwt
  obtain ⟨hpaired, hmethods, hsecret⟩ := of_jwtDefaults hjwk hpreset hkeys hjwt
  obtain ⟨e, he, rfl, -⟩ := exists_of_getSigningJwk hk
  obtain ⟨publicKey, hpublic, hkid, halg, pub, hpub, hraw⟩ := hpaired e he
  -- The configuration files the key under its own id, so the id in the token finds its entry.
  have hfound : findPublicKeyByKid lib.jwk (lib.jwk.keyID e.2.privateKey) c₂.jwt =
      (report (publicHalf lib.jwk e.2.privateKey)).map some := by
    have hlookup : c₂.jwt.keys.lookup (lib.jwk.keyID e.2.privateKey) = some e.2 := by
      rw [← hkid]
      exact AList.mem_lookup_iff.mpr he
    have hhalf : publicHalf lib.jwk e.2.privateKey = lib.jwk.raw publicKey := by
      rw [hraw, publicHalf, hpub]
      rfl
    obtain ⟨kid, pubOption, priv⟩ := e
    cases hpublic
    rw [findPublicKeyByKid, hlookup, hhalf]
  have hfoundSecret : lib.jwk.keyType e.2.privateKey = .oct → ∀ value,
      lib.jwk.raw e.2.privateKey = .ok value →
      findPublicKeyByKid lib.jwk (lib.jwk.keyID e.2.privateKey) c₂.jwt = .ok (some value) := by
    intro htype value hvalue
    -- The public half of a secret is the secret.
    rw [hfound, publicHalf, hpub]
    show (report (lib.jwk.raw pub)).map some = _
    rw [(hjwk.of_publicKeyOf hpub).2.2 htype, hvalue]
    rfl
  refine ⟨⟨keyType_getSigningAlg_iff, ⟨_, hmethods, ?_⟩, fun value hvalue => ?_, hfoundSecret,
    fun text htext => ?_⟩, fun hempty => ?_⟩
  · -- The public half has the same member `alg`.
    refine List.mem_map.mpr ⟨e, (ranges.validMethods.perm _).mem_iff.mpr he, ?_⟩
    rw [hpublic]
    unfold getSigningAlg
    dsimp only
    rw [halg]
  · rw [hfound, hvalue]
    rfl
  · rw [hfound, htext]
    rfl
  · obtain ⟨htype, hHS256, hrawSecret⟩ := hsecret hempty e he
    refine ⟨?_, htype, ?_⟩
    · unfold getSigningAlg
      dsimp only
      rw [hHS256]
      decide
    · exact hfoundSecret htype _ hrawSecret

/-- The order in which a map is stored. -/
def exampleRange : Dict.Iteration Bytes (JwkInfo ExampleKey) := ⟨AList.entries, fun _ => .refl _⟩

/-- The package of the runs below keeps its contract. -/
theorem exampleJwx_lawful : exampleJwx.Lawful where
  of_set := by
    rintro k k' param ⟨⟩
    cases param
    all_goals exact ⟨rfl, rfl, rfl, rfl⟩
  of_publicKeyOf := by
    rintro k pub ⟨⟩
    refine ⟨rfl, rfl, fun htype => ?_⟩
    have hoct : k.keyType = .oct := htype
    show Except.ok (if k.keyType = .oct then _ else _) =
      Except.ok (if k.keyType = .oct then _ else _)
    rw [if_pos hoct, if_pos hoct]
  of_fromRaw := by
    intro secret k h
    change (if secret = [] then _ else _) = Except.ok k at h
    split at h
    · cases h
    · cases h
      exact ⟨rfl, rfl, rfl, rfl⟩

/-- A configuration that is accepted, and its signing key, when they are computed. -/
theorem exists_accepted {c : GlobalConfiguration exampleTypes} {check : ExampleKey → Bool}
    (h : (match (do
        let c₁ ← applyDefaults exampleLibraries .default c
        let c₂ ← c₁.validate exampleLibraries .default
        report (getSigningJwk exampleJwx exampleRange c₂.jwt) : Except Failure ExampleKey) with
      | .ok k => check k
      | .error _ => false) = true) :
    ∃ c₁ c₂ k, applyDefaults exampleLibraries .default c = .ok c₁ ∧
      c₁.validate exampleLibraries .default = .ok c₂ ∧
      getSigningJwk exampleJwx exampleRange c₂.jwt = .ok k ∧ check k = true := by
  split at h
  · next k hk =>
    obtain ⟨c₁, hdefaults, hk⟩ := exists_of_bind_eq_ok hk
    obtain ⟨c₂, hvalidate, hk⟩ := exists_of_bind_eq_ok hk
    refine ⟨c₁, c₂, k, hdefaults, hvalidate, ?_, h⟩
    cases hsigning : getSigningJwk exampleJwx exampleRange c₂.jwt with
    | error text =>
      rw [hsigning] at hk
      cases hk
    | ok k' =>
      rw [hsigning] at hk
      cases hk
      rfl
  · cases h

/-- The configuration of an environment without keys. -/
def secretConfiguration : GlobalConfiguration exampleTypes := exampleConfiguration (exampleEnv "")

/-- A configuration with a secret alone: its key signs, and its id leads to the key. -/
theorem verifies_of_accepted_secret : ∃ cfg k, VerifiesSigned exampleLibraries cfg k ∧
    SignsWithSecret exampleLibraries cfg k := by
  obtain ⟨c₁, c₂, k, hdefaults, hvalidate, hk, -⟩ :=
    @exists_accepted secretConfiguration (fun _ => true) (by decide +kernel)
  have h := verifies_of_accepted exampleJwx_lawful rfl (.inl rfl) hdefaults hvalidate hk
  exact ⟨c₂.jwt, k, h.1, h.2 rfl⟩

/-- The same configuration with the keys of an array of one RSA key. -/
def rsaConfiguration : GlobalConfiguration exampleTypes :=
  { secretConfiguration with
    jwt := { secretConfiguration.jwt with keys := Dict.insertAll ∅ [signingEntry "4slQ"] } }

/-- An RSA key without the member `alg` is accepted, and signs with a method for secrets: that is
the method a missing member stands for. -/
theorem rsa_signs_with_HS256 : decode exampleJwx oneKey = .ok rsaConfiguration.jwt.keys ∧
    rsaConfiguration.jwt.validMethods = none ∧
    ∃ c₁ c₂ k, applyDefaults exampleLibraries .default rsaConfiguration = .ok c₁ ∧
      c₁.validate exampleLibraries .default = .ok c₂ ∧
      getSigningJwk exampleJwx exampleRange c₂.jwt = .ok k ∧
      (getSigningAlg exampleJwx (some k)).keyType ≠ exampleJwx.keyType k := by
  obtain ⟨data, harray, hes⟩ := @exists_array oneKey [signingEntry "4slQ"] (by decide +kernel)
  refine ⟨decode_array harray hes, rfl, ?_⟩
  obtain ⟨c₁, c₂, k, hdefaults, hvalidate, hk, hcheck⟩ := @exists_accepted rsaConfiguration
    (fun k => decide ((getSigningAlg exampleJwx (some k)).keyType ≠ exampleJwx.keyType k))
    (by decide +kernel)
  exact ⟨c₁, c₂, k, hdefaults, hvalidate, hk, of_decide_eq_true hcheck⟩

end TSubSpec.Auth
