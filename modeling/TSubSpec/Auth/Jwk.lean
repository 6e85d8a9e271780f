import TSubSpec.Lib.Bytes
import TSubSpec.Lib.Dict
import TSubSpec.Lib.Json
import TSubSpec.Lib.Utf8

/-!
# `TSubSpec.Auth.Jwk`: the keys of the auth server

The keys come as a JSON array of JWKs. `decode` puts them into a map from key id to the key and
its public half, `validate` counts the keys that sign, `getSigningJwk` picks one of those. Tokens
are signed with the method `getSigningAlg`, and `findPublicKeyByKid` finds the key that verifies.

The library that parses and checks single keys is the parameter `Jwx`. It reports bad input as an
error. A loop over a map takes the order in which it visits the keys.
-/

set_option autoImplicit false

namespace TSubSpec.Auth

open TSubSpec.Lib

/-- How a call ends that does not return a value: with an error, or with a panic that ends the
program. -/
inductive Failure where
  | error (text : Bytes)
  | panic (text : Bytes)
  deriving DecidableEq, Repr

/-- An error that is passed on. -/
def report {α : Type} (result : Except Bytes α) : Except Failure α := result.mapError .error

/-! ### The library -/

/-- The member `kty` of a JWK. -/
inductive KeyType where
  | oct
  | rsa
  | ec
  | okp
  deriving DecidableEq, Repr

/-- What `Key.Set` sets. -/
inductive Param where
  | keyID (kid : Bytes)
  | algorithm (alg : Bytes)
  | keyUsage (usage : Bytes)
  | keyOps (ops : List Bytes)
  deriving DecidableEq, Repr

/-- The package `jwk`. The raw value of a symmetric key are its bytes. What is assumed of it is in
`Jwx.Lawful`. -/
structure Jwx (Key Raw : Type) where
  parseKey : Json.Value → Except Bytes Key
  fromRaw : Bytes → Except Bytes Key
  publicKeyOf : Key → Except Bytes Key
  set : Key → Param → Except Bytes Key
  keyType : Key → KeyType
  keyID : Key → Bytes
  algorithm : Key → Bytes
  keyOps : Key → List Bytes
  validate : Key → Except Bytes Unit
  raw : Key → Except Bytes (Bytes ⊕ Raw)

/-! ### Signing methods -/

/-- A signing method of the package `jwt`. -/
inductive SigningMethod where
  | HS256
  | RS256
  | RS512
  | ES256
  | ES512
  | EdDSA
  deriving DecidableEq, Repr

/-- The name of a method. -/
def SigningMethod.alg : SigningMethod → Bytes
  | HS256 => ascii "HS256"
  | RS256 => ascii "RS256"
  | RS512 => ascii "RS512"
  | ES256 => ascii "ES256"
  | ES512 => ascii "ES512"
  | EdDSA => ascii "EdDSA"

/-- The keys that a method takes. -/
def SigningMethod.keyType : SigningMethod → KeyType
  | HS256 => .oct
  | RS256 => .rsa
  | RS512 => .rsa
  | ES256 => .ec
  | ES512 => .ec
  | EdDSA => .okp

/-! ### Keys -/

/-- `JwkInfo`. -/
structure JwkInfo (Key : Type) where
  publicKey : Option Key
  privateKey : Key
  deriving DecidableEq, Repr

/-- `JwtKeysDecoder`. -/
abbrev JwtKeysDecoder (Key : Type) := Dict Bytes (JwkInfo Key)

/-- `JWTConfiguration`. -/
structure JWTConfiguration (Key : Type) where
  secret : Bytes
  exp : Int
  adminGroupName : Bytes
  adminRoles : List Bytes
  keyID : Bytes
  keys : JwtKeysDecoder Key
  validMethods : Option (List Bytes)

section

variable {Key Raw : Type} (jwk : Jwx Key Raw)

/-- `JwtKeysDecoder.decodePublicKey`: the public half is made one for verifying, and both are stored
under its id. -/
def decodePublicKey (config : JwtKeysDecoder Key) (privJwk pubJwk : Key) :
    Except Bytes (JwtKeysDecoder Key) := do
  -- all public keys should have the use claim set to 'sig'
  let pubJwk ← jwk.set pubJwk (.keyUsage (ascii "sig"))
  -- all public keys should only have 'verify' set as the key_ops
  let pubJwk ← jwk.set pubJwk (.keyOps [ascii "verify"])
  return config.insert (jwk.keyID pubJwk) ⟨some pubJwk, privJwk⟩

/-- `JwtKeysDecoder.decodePrivateKey`: the public half is that of the key. -/
def decodePrivateKey (config : JwtKeysDecoder Key) (privJwk : Key) :
    Except Bytes (JwtKeysDecoder Key) := do
  decodePublicKey jwk config privJwk (← jwk.publicKeyOf privJwk)

/-- `JwtKeysDecoder.decodeKey`: one member of the array is parsed and stored. -/
def decodeKey (config : JwtKeysDecoder Key) (key : Json.Value) :
    Except Bytes (JwtKeysDecoder Key) := do
  decodePrivateKey jwk config (← jwk.parseKey key)

/-- `json.Unmarshal` into a slice of raw messages. One text stands for all its errors. -/
def unmarshalRaw (value : Bytes) : Except Bytes (List Json.Value) :=
  match Json.parse (Utf8.runes value) with
  | some (.array data) => .ok data
  | some .null => .ok []
  | _ => .error (ascii "json: cannot unmarshal")

/-- `JwtKeysDecoder.Decode`: the members of an array are decoded one by one. A key with the id of an
earlier one replaces it. -/
def decode (value : Bytes) : Except Bytes (JwtKeysDecoder Key) := do
  (← unmarshalRaw value).foldlM (decodeKey jwk) ∅

/-- The key lists the operation `sign`. -/
def signs (info : JwkInfo Key) : Bool := (jwk.keyOps info.privateKey).contains (ascii "sign")

/-- The loop of `JwtKeysDecoder.Validate`. -/
def collectSigningKeys : List (Entry Bytes (JwkInfo Key)) → List Key → Except Bytes (List Key)
  | [], signingKeys => return signingKeys
  | ⟨_, key⟩ :: rest, signingKeys => do
    jwk.validate key.privateKey
    -- symmetric keys don't have public keys
    match key.publicKey with
    | some publicKey => jwk.validate publicKey
    | none => pure ()
    collectSigningKeys rest (if signs jwk key then signingKeys ++ [key.privateKey] else signingKeys)

/-- `JwtKeysDecoder.Validate`: every key is valid, and exactly one of them signs. -/
def validate (range : Dict.Iteration Bytes (JwkInfo Key)) (keys : JwtKeysDecoder Key) :
    Except Bytes Unit := do
  let signingKeys ← collectSigningKeys jwk (range.visit keys) []
  if signingKeys.length = 0 then .error (ascii "no signing key detected")
  else if signingKeys.length > 1 then
    .error (ascii "multiple signing keys detected, only 1 signing key is supported")
  else return ()

/-- `GetSigningJwk`: the first key that signs, in the order of the loop. -/
def getSigningJwk (range : Dict.Iteration Bytes (JwkInfo Key)) (config : JWTConfiguration Key) :
    Except Bytes Key :=
  match (range.visit config.keys).find? fun entry => signs jwk entry.2 with
  | some entry => .ok entry.2.privateKey
  | none => .error (ascii "no signing key found")

/-- `GetSigningAlg`: the method that the key names, and `HS256` if it names none that is known. -/
def getSigningAlg : Option Key → SigningMethod
  | none => .HS256
  | some k =>
    if jwk.algorithm k = ascii "RS256" then .RS256
    else if jwk.algorithm k = ascii "RS512" then .RS512
    else if jwk.algorithm k = ascii "ES256" then .ES256
    else if jwk.algorithm k = ascii "ES512" then .ES512
    else if jwk.algorithm k = ascii "EdDSA" then .EdDSA
    -- return HS256 to preserve existing behaviour
    else .HS256

/-- `FindPublicKeyByKid`: the raw value of the public half under this id. The call of `Raw` on a
missing key would be that of a nil pointer. -/
def findPublicKeyByKid (kid : Bytes) (config : JWTConfiguration Key) :
    Except Failure (Option (Bytes ⊕ Raw)) :=
  match config.keys.lookup kid with
  | some ⟨some publicKey, _⟩ => (report (jwk.raw publicKey)).map some
  | some ⟨none, _⟩ => .error (.panic (ascii "nil pointer dereference"))
  | none =>
    if kid = config.keyID then .ok (some (.inl config.secret))
    -- don't return error, as a fallback key might be used
    else .ok none

/-! ### What the functions do -/

/-- The entry that a JWK makes. -/
def readEntry (key : Json.Value) : Except Bytes (Entry Bytes (JwkInfo Key)) := do
  let privJwk ← jwk.parseKey key
  let pubJwk ← jwk.publicKeyOf privJwk
  let pubJwk ← jwk.set pubJwk (.keyUsage (ascii "sig"))
  let pubJwk ← jwk.set pubJwk (.keyOps [ascii "verify"])
  return ⟨jwk.keyID pubJwk, ⟨some pubJwk, privJwk⟩⟩

/-- The key and its public half pass the checks of the library, which `JwtKeysDecoder.Validate`
makes. -/
def ValidKey (info : JwkInfo Key) : Prop :=
  jwk.validate info.privateKey = .ok () ∧ ∀ k, info.publicKey = some k → jwk.validate k = .ok ()

variable {jwk} {config : JwtKeysDecoder Key} {es : List (Entry Bytes (JwkInfo Key))}

theorem decodeKey_eq (key : Json.Value) :
    decodeKey jwk config key = (readEntry jwk key).map fun e => config.insert e.1 e.2 := by
  unfold decodeKey decodePrivateKey decodePublicKey readEntry
  cases jwk.parseKey key with
  | error text => rfl
  | ok privJwk =>
    show (jwk.publicKeyOf privJwk >>= _) = Except.map _ (jwk.publicKeyOf privJwk >>= _)
    cases jwk.publicKeyOf privJwk with
    | error text => rfl
    | ok pubJwk =>
      show (jwk.set pubJwk _ >>= _) = Except.map _ (jwk.set pubJwk _ >>= _)
      cases jwk.set pubJwk (.keyUsage (ascii "sig")) with
      | error text => rfl
      | ok pubJwk' =>
        show (jwk.set pubJwk' _ >>= _) = Except.map _ (jwk.set pubJwk' _ >>= _)
        cases jwk.set pubJwk' (.keyOps [ascii "verify"]) with
        | error text => rfl
        | ok pubJwk'' => rfl

/-- The keys of an array are inserted from left to right. -/
theorem foldlM_decodeKey : ∀ {data : List Json.Value} {es : List (Entry Bytes (JwkInfo Key))}
    {config : JwtKeysDecoder Key}, data.mapM (readEntry jwk) = .ok es →
      data.foldlM (decodeKey jwk) config = .ok (Dict.insertAll config es)
  | [], es, config, h => by
    cases h
    rfl
  | key :: data, es, config, h => by
    rw [List.mapM_cons] at h
    rw [List.foldlM_cons, decodeKey_eq]
    cases hkey : readEntry jwk key with
    | error text =>
      rw [hkey] at h
      cases h
    | ok e =>
      rw [hkey] at h
      cases hdata : data.mapM (readEntry jwk) with
      | error text =>
        rw [hdata] at h
        cases h
      | ok es' =>
        rw [hdata] at h
        cases h
        exact foldlM_decodeKey hdata

/-- The checks of one key in the loop. -/
theorem collectSigningKeys_cons {kid : Bytes} {key : JwkInfo Key} {signingKeys : List Key} :
    collectSigningKeys jwk (⟨kid, key⟩ :: es) signingKeys = (do
      jwk.validate key.privateKey
      match key.publicKey with
      | some publicKey => jwk.validate publicKey
      | none => pure ()
      collectSigningKeys jwk es
        (if signs jwk key then signingKeys ++ [key.privateKey] else signingKeys)) := rfl

/-- A check in front of a loop. -/
theorem check_bind_eq_ok_iff {α : Type} {check : Except Bytes Unit} {rest : Except Bytes α}
    {result : α} : (check >>= fun _ => rest) = .ok result ↔ check = .ok () ∧ rest = .ok result := by
  cases check with
  | error text => exact iff_of_false nofun nofun
  | ok _ => exact (and_iff_right rfl).symm

/-- The loop fails at a key that is not valid, and collects the keys that sign. -/
theorem collectSigningKeys_eq_ok_iff {signingKeys result : List Key} :
    collectSigningKeys jwk es signingKeys = .ok result ↔ (∀ e ∈ es, ValidKey jwk e.2) ∧
      result = signingKeys ++ (es.filter fun e => signs jwk e.2).map fun e => e.2.privateKey := by
  induction es generalizing signingKeys with
  | nil => simp [collectSigningKeys, pure, Except.pure, eq_comm]
  | cons e es ih =>
    obtain ⟨kid, publicKey, privateKey⟩ := e
    have hsigned : (if signs jwk ⟨publicKey, privateKey⟩ then signingKeys ++ [privateKey]
          else signingKeys) ++ (es.filter fun e => signs jwk e.2).map (fun e => e.2.privateKey) =
        signingKeys ++ ((⟨kid, publicKey, privateKey⟩ :: es).filter fun e => signs jwk e.2).map
          fun e => e.2.privateKey := by
      by_cases h : signs jwk ⟨publicKey, privateKey⟩
      · simp [h]
      · simp [h]
    rw [List.forall_mem_cons, ← hsigned, collectSigningKeys_cons, check_bind_eq_ok_iff, and_assoc]
    -- The public half is validated only where there is one.
    cases publicKey with
    | none =>
      have hvalid : ValidKey jwk ⟨none, privateKey⟩ ↔ jwk.validate privateKey = .ok () :=
        and_iff_left nofun
      rw [hvalid]
      exact and_congr_right fun _ => ih
    | some publicKey =>
      have hvalid : ValidKey jwk ⟨some publicKey, privateKey⟩ ↔
          jwk.validate privateKey = .ok () ∧ jwk.validate publicKey = .ok () := by
        simp [ValidKey]
      rw [hvalid, and_assoc]
      exact and_congr_right fun _ => check_bind_eq_ok_iff.trans (and_congr_right fun _ => ih)

/-- `Validate` succeeds exactly when every key of the map is valid and one of them signs. -/
theorem validate_eq_ok_iff {range : Dict.Iteration Bytes (JwkInfo Key)} :
    validate jwk range config = .ok () ↔ (∀ e ∈ config.entries, ValidKey jwk e.2) ∧
      (config.entries.countP fun e => signs jwk e.2) = 1 := by
  have hperm := range.perm config
  have hcollect := @collectSigningKeys_eq_ok_iff Key Raw jwk (range.visit config) []
  have hmem : (∀ e ∈ range.visit config, ValidKey jwk e.2) ↔
      ∀ e ∈ config.entries, ValidKey jwk e.2 := by simp only [hperm.mem_iff]
  have hcount : ((range.visit config).filter fun e => signs jwk e.2).length =
      config.entries.countP fun e => signs jwk e.2 := by
    rw [← List.countP_eq_length_filter, hperm.countP_eq]
  unfold validate
  -- The loop runs over the map in any order, and its outcome does not depend on it.
  cases h : collectSigningKeys jwk (range.visit config) [] with
  | error text =>
    constructor
    · intro h
      cases h
    · rintro ⟨hvalid, -⟩
      cases h.symm.trans (hcollect.mpr ⟨hmem.mpr hvalid, rfl⟩)
  | ok signingKeys =>
    obtain ⟨hvalid, rfl⟩ := hcollect.mp h
    rw [← hmem, ← hcount]
    show (if _ then _ else _) = _ ↔ _
    rw [List.nil_append, List.length_map]
    split
    · next hzero => simp [hzero]
    · next hzero =>
      split
      · next hmany =>
        constructor
        · intro h
          cases h
        · rintro ⟨-, hone⟩
          exact absurd hone (Nat.ne_of_gt hmany)
      · next hmany =>
        refine ⟨fun _ => ⟨hvalid, ?_⟩, fun _ => rfl⟩
        omega

/-- With one key that signs, `GetSigningJwk` returns it. -/
theorem getSigningJwk_eq_ok {range : Dict.Iteration Bytes (JwkInfo Key)}
    {cfg : JWTConfiguration Key} {e : Entry Bytes (JwkInfo Key)} (he : e ∈ cfg.keys.entries)
    (hsigns : signs jwk e.2) (hone : (cfg.keys.entries.countP fun e => signs jwk e.2) = 1) :
    getSigningJwk jwk range cfg = .ok e.2.privateKey := by
  have hperm := range.perm cfg.keys
  rw [← hperm.countP_eq, List.countP_eq_length_filter, List.length_eq_one_iff] at hone
  obtain ⟨e', hfilter⟩ := hone
  have hmem : e ∈ (range.visit cfg.keys).filter fun e => signs jwk e.2 :=
    List.mem_filter.mpr ⟨hperm.mem_iff.mpr he, hsigns⟩
  rw [hfilter, List.mem_singleton] at hmem
  subst hmem
  unfold getSigningJwk
  rw [← List.head?_filter, hfilter]
  rfl

/-- What `GetSigningJwk` returns is a key of the map that signs. -/
theorem exists_of_getSigningJwk {range : Dict.Iteration Bytes (JwkInfo Key)}
    {cfg : JWTConfiguration Key} {k : Key} (h : getSigningJwk jwk range cfg = .ok k) :
    ∃ e ∈ cfg.keys.entries, e.2.privateKey = k ∧ signs jwk e.2 := by
  unfold getSigningJwk at h
  split at h
  · next e he =>
    cases h
    have hsigns : signs jwk e.2 = true := by simpa using List.find?_some he
    exact ⟨e, (range.perm cfg.keys).mem_iff.mp (List.mem_of_find?_eq_some he), rfl, hsigns⟩
  · cases h

end

/-! ### A library for RSA keys and secrets -/

/-- A key. Its value is the secret, or the text of the modulus. -/
structure ExampleKey where
  keyType : KeyType
  value : Bytes
  hasPrivate : Bool
  keyID : Bytes
  algorithm : Bytes
  usage : Bytes
  keyOps : List Bytes
  deriving DecidableEq, Repr

/-- A member of an object that is a string. -/
def stringMember (members : List (List Char × Json.Value)) (name : String) : Bytes :=
  match members.lookup name.toList with
  | some (.string s) => Utf8.encode s
  | _ => []

/-- The member `key_ops`. -/
def keyOpsMember (members : List (List Char × Json.Value)) : List Bytes :=
  match members.lookup "key_ops".toList with
  | some (.array ops) => ops.filterMap fun
    | .string s => some (Utf8.encode s)
    | _ => none
  | _ => []

/-- An object as an RSA key. -/
def ExampleKey.parse : Json.Value → Except Bytes ExampleKey
  | .object members =>
    if stringMember members "kty" = ascii "RSA" then
      .ok ⟨.rsa, stringMember members "n", stringMember members "d" ≠ [],
        stringMember members "kid",
        stringMember members "alg", stringMember members "use", keyOpsMember members⟩
    else .error (ascii "invalid key type from JSON")
  | _ => .error (ascii "failed to unmarshal JSON into key hint")

/-- The parts of the package `jwk` that RSA keys and secrets use. -/
def exampleJwx : Jwx ExampleKey (Bytes × Bool) where
  parseKey := ExampleKey.parse
  fromRaw secret :=
    if secret = [] then .error (ascii "non-empty []byte key required")
    else .ok ⟨.oct, secret, true, [], [], [], []⟩
  publicKeyOf k := .ok { k with hasPrivate := k.keyType = .oct }
  set k param := .ok (match param with
    | .keyID kid => { k with keyID := kid }
    | .algorithm alg => { k with algorithm := alg }
    | .keyUsage usage => { k with usage := usage }
    | .keyOps ops => { k with keyOps := ops })
  keyType := ExampleKey.keyType
  keyID := ExampleKey.keyID
  algorithm := ExampleKey.algorithm
  keyOps := ExampleKey.keyOps
  validate k := if k.value = [] then .error (ascii "invalid key") else .ok ()
  raw k := .ok (if k.keyType = .oct then .inl k.value else .inr (k.value, k.hasPrivate))

end TSubSpec.Auth
