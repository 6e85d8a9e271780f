import TSubSpec.Auth.Jwk

/-!
# `TSubSpec.Auth.Configuration`: loading the configuration

`loadGlobal` reads the environment, then `ApplyDefaults`, `Validate` and `populateGlobal` work on
the result. Each of them ends with an error or with a configuration, or it panics: an index that
is out of range panics, and so does `glob.MustCompile`.

What the program takes from other packages is the parameter `Libraries`. These functions report
bad input as errors. The package `envconfig` reads the fields, and calls the decoders of this
package for the fields that have one. Fields that no function here reads are left out, such as
those of the external providers.
-/

set_option autoImplicit false

namespace TSubSpec.Auth

open TSubSpec.Lib

/-! ### Other packages -/

/-- The types of other packages. The functions here pass their values on and do not look into
them. -/
structure Types where
  Env : Type
  Key : Type
  Raw : Type
  Glob : Type
  RsaKey : Type
  Certificate : Type
  Template : Type

/-- A letter in lower case. -/
def lowerByte (b : UInt8) : UInt8 := if 0x41 ≤ b ∧ b ≤ 0x5a then b + 0x20 else b

/-- A parsed URL. Its scheme is in lower case, as `url.Parse` makes it. -/
structure Url where
  scheme : Bytes
  path : Bytes
  hostname : Bytes
  scheme_lower : scheme.map lowerByte = scheme

/-- What a certificate is made from. -/
structure CertTemplate where
  dnsName : Bytes
  commonName : Bytes
  dataEncipherment : Bool

/-! ### Configurations -/

/-- `APIConfiguration`. -/
structure APIConfiguration where
  externalURL : Bytes

/-- `DBConfiguration`. -/
structure DBConfiguration where
  connPercentage : Int

/-- `SMTPConfiguration`. -/
structure SMTPConfiguration where
  maxFrequency : Int
  adminEmail : Bytes
  senderName : Bytes
  headers : Bytes
  fromAddress : Bytes
  normalizedHeaders : Option (Dict Bytes (List Bytes))

/-- `EmailContentConfiguration`. -/
structure EmailContentConfiguration where
  invite : Bytes
  confirmation : Bytes
  recovery : Bytes
  emailChange : Bytes

/-- `MailerConfiguration`. -/
structure MailerConfiguration where
  autoconfirm : Bool
  allowUnverifiedEmailSignIns : Bool
  urlPaths : EmailContentConfiguration
  otpExp : Nat
  otpLength : Int
  emailValidationServiceHeaders : Bytes
  emailValidationBlockedMX : Bytes
  serviceHeaders : Option (Dict Bytes (List Bytes))
  blockedMXRecords : Option (Dict Bytes Bool)

/-- `SAMLConfiguration`. -/
structure SAMLConfiguration (T : Types) where
  enabled : Bool
  privateKey : Bytes
  allowEncryptedAssertions : Bool
  relayStateValidityPeriod : Int
  rsaPrivateKey : Option T.RsaKey
  certificate : Option T.Certificate
  externalURL : Bytes

/-- `CaptchaConfiguration`. -/
structure CaptchaConfiguration where
  enabled : Bool
  provider : Bytes
  secret : Bytes

/-- `DatabaseEncryptionConfiguration`. -/
structure DatabaseEncryptionConfiguration where
  encrypt : Bool
  encryptionKeyID : Bytes
  encryptionKey : Bytes
  decryptionKeys : Dict Bytes Bytes

/-- `SecurityConfiguration`. -/
structure SecurityConfiguration where
  captcha : CaptchaConfiguration
  dbEncryption : DatabaseEncryptionConfiguration

/-- `SessionsConfiguration`. -/
structure SessionsConfiguration where
  timebox : Option Int
  inactivityTimeout : Option Int
  allowLowAAL : Option Int

/-- `ExtensibilityPointConfiguration`. -/
structure ExtensibilityPoint where
  uri : Bytes
  enabled : Bool
  hookName : Bytes
  httpHookSecrets : List Bytes
  deriving DecidableEq, Repr

/-- The hooks. -/
inductive HookKind where
  | mfaVerificationAttempt
  | passwordVerificationAttempt
  | customAccessToken
  | sendSMS
  | sendEmail
  | beforeUserCreated
  | afterUserCreated
  deriving DecidableEq, Repr

/-- `HookConfiguration`. -/
abbrev HookConfiguration := HookKind → ExtensibilityPoint

/-- `PasswordConfiguration`. -/
structure PasswordConfiguration where
  minLength : Int
  requiredCharacters : List Bytes

/-- `PhoneFactorTypeConfiguration`. -/
structure PhoneFactorTypeConfiguration (T : Types) where
  enrollEnabled : Bool
  verifyEnabled : Bool
  otpLength : Int
  smsTemplate : Option T.Template
  maxFrequency : Int
  template : Bytes

/-- `MFAConfiguration`. -/
structure MFAConfiguration (T : Types) where
  challengeExpiryDuration : Float
  factorExpiryDuration : Int
  phone : PhoneFactorTypeConfiguration T

/-- `SmsProviderConfiguration`. -/
structure SmsProviderConfiguration (T : Types) where
  maxFrequency : Int
  otpExp : Nat
  otpLength : Int
  provider : Bytes
  template : Bytes
  testOTP : Option (Dict Bytes Bytes)
  smsTemplate : Option T.Template

/-- `ProviderConfiguration`. -/
structure ProviderConfiguration where
  flowStateExpiryDuration : Int
  allowedIdTokenIssuers : List Bytes

/-- The two kinds of rates: a burst of events in a given time, and a number of events an hour. -/
inductive RateType where
  | burst
  | interval
  deriving DecidableEq, Repr

/-- `Rate`. -/
structure Rate where
  events : Float
  overTime : Int
  typ : RateType

/-- `GlobalConfiguration`. Durations are in nanoseconds. -/
structure GlobalConfiguration (T : Types) where
  api : APIConfiguration
  db : DBConfiguration
  external : ProviderConfiguration
  smtp : SMTPConfiguration
  rateLimitEmailSent : Rate
  rateLimitSmsSent : Rate
  uriAllowList : Option (List Bytes)
  uriAllowListMap : Dict Bytes T.Glob
  password : PasswordConfiguration
  jwt : JWTConfiguration T.Key
  mailer : MailerConfiguration
  sms : SmsProviderConfiguration T
  hook : HookConfiguration
  security : SecurityConfiguration
  sessions : SessionsConfiguration
  mfa : MFAConfiguration T
  saml : SAMLConfiguration T

/-- The values of the fields that have a decoder. -/
structure EncodedFields where
  keys : Option Bytes
  requiredCharacters : Option Bytes
  httpHookSecrets : HookKind → Option Bytes
  rateLimitEmailSent : Option Bytes
  rateLimitSmsSent : Option Bytes

/-- The functions of other packages. Each of them returns a value or an error. -/
structure Libraries (T : Types) where
  jwk : Jwx T.Key T.Raw
  /-- The fields without a decoder, and the values of the others. -/
  envconfig : T.Env → Except Bytes (GlobalConfiguration T × EncodedFields)
  parseFloat : Bytes → Option Float
  parseUint52 : Bytes → Except Bytes Nat
  parseDuration : Bytes → Except Bytes Int
  formatDuration : Int → Bytes
  /-- The verb `%q`, which puts plain text in quotes. -/
  quote : Bytes → Bytes
  quote_plain : ∀ s, (∀ b ∈ s, 0x20 ≤ b ∧ b < 0x7f ∧ b ≠ 0x22 ∧ b ≠ 0x5c) →
    quote s = ascii "\"" ++ s ++ ascii "\""
  trimSpace : Bytes → Bytes
  decodeBase64 : Bytes → Except Bytes Bytes
  decodeBase64URL : Bytes → Except Bytes Bytes
  unmarshalHeaders : Bytes → Except Bytes (Dict Bytes (List Bytes))
  unmarshalStrings : Bytes → Except Bytes (List Bytes)
  formatAddress : Bytes → Bytes → Bytes
  parseURL : Bytes → Except Bytes Url
  parseURL_nil : ∀ u, parseURL [] = .ok u → u.scheme = []
  /-- The host and the port of the URL. -/
  parseRequestURI : Bytes → Except Bytes Bytes
  splitHostPort : Bytes → Except Bytes Bytes
  compileGlob : Bytes → Except Bytes T.Glob
  parsePKCS1PrivateKey : Bytes → Except Bytes T.RsaKey
  rsaExponent : T.RsaKey → Nat
  rsaBitLen : T.RsaKey → Nat
  createCertificate : CertTemplate → T.RsaKey → Except Bytes Bytes
  parseCertificate : Bytes → Except Bytes T.Certificate
  parseTemplate : Bytes → Except Bytes T.Template

/-- The orders in which the loops over maps visit them. Go leaves them open, so what is proved holds
for all of them. -/
structure Ranges (T : Types) where
  validMethods : Dict.Iteration Bytes (JwkInfo T.Key)
  testOTP : Dict.Iteration Bytes Bytes
  decryptionKeys : Dict.Iteration Bytes Bytes
  keys : Dict.Iteration Bytes (JwkInfo T.Key)

section

variable {T : Types} (lib : Libraries T) (ranges : Ranges T)

/-! ### Decoders -/

/-- An element of a slice. An index outside of it panics. -/
def index {α : Type} (l : List α) (i : Nat) : Except Failure α :=
  match l[i]? with
  | some a => .ok a
  | none => .error (.panic (ascii "index out of range"))

/-- The loop of `PasswordRequiredCharacters.Decode` at the part `i`: a part that ends in the escape
character is joined with the one behind it. -/
def joinEscaped (parts : List Bytes) (i : Nat) : Except Failure (List Bytes) := do
  let part ← index parts i
  if part = [] then return parts
  -- part ended in escape character, so it should be joined with the next one
  if (← index part (part.length - 1)) = 0x5c then
    let following ← index parts (i + 1)
    return (parts.set i (part.dropLast ++ ascii ":" ++ following)).set (i + 1) []
  return parts

/-- `PasswordRequiredCharacters.Decode`: the value is split at colons, the escaped ones are joined
again, and empty parts are left out. -/
def decodeRequiredCharacters (value : Bytes) : Except Failure (List Bytes) := do
  let parts := value.splitOn 0x3a
  let parts ← (List.range (parts.length - 1)).foldlM joinEscaped parts
  return parts.filter fun part => part ≠ []

/-- `HTTPHookSecrets.Decode`: the secrets are separated by `|`. -/
def decodeHTTPHookSecrets (value : Bytes) : List Bytes :=
  (value.splitOn 0x7c).filter fun part => part ≠ []

/-- `defaultOverTime`, one hour. -/
def defaultOverTime : Int := 3600000000000

/-- `Rate.Decode`: a number of events, or a number and a duration behind a slash. -/
def decodeRate (value : Bytes) : Except Failure Rate := do
  match lib.parseFloat value with
  | some f => return ⟨f, defaultOverTime, .interval⟩
  | none =>
    let parts := value.splitOn 0x2f
    if parts.length ≠ 2 then
      throw (.error (ascii "rate: value does not match rate syntax " ++ lib.quote value))
    -- 52 because the uint needs to fit in a float64
    let e ← report (lib.parseUint52 (← index parts 0))
    let d ← report (lib.parseDuration (← index parts 1))
    return ⟨Float.ofNat e, d, .burst⟩

/-- A field that has a decoder keeps its value if the variable is not set. Otherwise the decoder
makes the value. -/
def decodeField {α : Type} (decoder : Bytes → Except Failure α) (old : α) :
    Option Bytes → Except Failure α
  | some value => decoder value
  | none => .ok old

/-- `envconfig.Process`: the fields that have a decoder are decoded, and the others come from the
package. -/
def processEnv (env : T.Env) : Except Failure (GlobalConfiguration T) := do
  let (config, encoded) ← report (lib.envconfig env)
  let emailSent ← decodeField (decodeRate lib) config.rateLimitEmailSent encoded.rateLimitEmailSent
  let smsSent ← decodeField (decodeRate lib) config.rateLimitSmsSent encoded.rateLimitSmsSent
  let required ← decodeField decodeRequiredCharacters config.password.requiredCharacters
    encoded.requiredCharacters
  let keys ← decodeField (fun value => report (decode lib.jwk value)) config.jwt.keys encoded.keys
  return { config with
    rateLimitEmailSent := emailSent
    rateLimitSmsSent := smsSent
    password := { config.password with requiredCharacters := required }
    jwt := { config.jwt with keys := keys }
    hook := fun kind => { config.hook kind with
      httpHookSecrets := match encoded.httpHookSecrets kind with
        | some value => decodeHTTPHookSecrets value
        | none => (config.hook kind).httpHookSecrets } }

/-! ### `ApplyDefaults` -/

/-- Sets a parameter of the key under a condition. -/
def setIf (cond : Prop) [Decidable cond] (k : T.Key) (param : Param) : Except Bytes T.Key :=
  if cond then lib.jwk.set k param else .ok k

/-- `applyDefaultsJWTPrivateKey`: what the key does not say is set. -/
def applyDefaultsJWTPrivateKey (config : JWTConfiguration T.Key) (privKey : T.Key) :
    Except Bytes (JWTConfiguration T.Key) := do
  let privKey ← setIf lib (config.keyID ≠ []) privKey (.keyID config.keyID)
  let privKey ← setIf lib (lib.jwk.algorithm privKey = []) privKey
    (.algorithm SigningMethod.HS256.alg)
  let privKey ← lib.jwk.set privKey (.keyUsage (ascii "sig"))
  let privKey ← setIf lib ((lib.jwk.keyOps privKey).length = 0) privKey
    (.keyOps [ascii "sign", ascii "verify"])
  let pubKey ← lib.jwk.publicKeyOf privKey
  return { config with keys := AList.insert config.keyID ⟨some pubKey, privKey⟩ ∅ }

/-- `applyDefaultsJWT`: a key is made from the secret. -/
def applyDefaultsJWT (config : JWTConfiguration T.Key) (secret : Bytes) :
    Except Bytes (JWTConfiguration T.Key) := do
  -- transform the secret into a JWK for consistency
  applyDefaultsJWTPrivateKey lib config (← lib.jwk.fromRaw secret)

/-- The value, or a default if it is empty. -/
def orDefault (value : Bytes) (default : String) : Bytes :=
  if value = [] then ascii default else value

/-- The defaults of the JWT configuration that do not depend on a key. -/
def adminDefaults (config : JWTConfiguration T.Key) : JWTConfiguration T.Key :=
  { config with
    adminGroupName := orDefault config.adminGroupName "admin"
    adminRoles := if config.adminRoles.length = 0 then
      [ascii "service_role", ascii "supabase_admin"] else config.adminRoles
    exp := if config.exp = 0 then 3600 else config.exp }

/-- The methods of the keys are valid, if none are set. -/
def validMethodsDefault (config : JWTConfiguration T.Key) : JWTConfiguration T.Key :=
  match config.validMethods with
  | some _ => config
  | none => { config with validMethods := some ((ranges.validMethods.visit config.keys).map
      fun entry => (getSigningAlg lib.jwk entry.2.publicKey).alg) }

/-- The secret makes a key, if there are no other keys. -/
def keysDefault (config : JWTConfiguration T.Key) : Except Bytes (JWTConfiguration T.Key) :=
  if config.keys.entries.length = 0 then applyDefaultsJWT lib config config.secret else .ok config

/-- The defaults of the JWT configuration. -/
def jwtDefaults (config : JWTConfiguration T.Key) : Except Bytes (JWTConfiguration T.Key) :=
  (keysDefault lib (adminDefaults config)).map (validMethodsDefault lib ranges)

/-- A length of one-time passwords that is allowed, or 6. -/
def otpLengthDefault (length : Int) : Int := if length < 6 ∨ length > 10 then 6 else length

/-- One minute. -/
def minute : Int := 60000000000

/-- The defaults of the mailer. -/
def mailerDefaults (config : MailerConfiguration) : MailerConfiguration :=
  { config with
    urlPaths :=
      { invite := orDefault config.urlPaths.invite "/verify"
        confirmation := orDefault config.urlPaths.confirmation "/verify"
        recovery := orDefault config.urlPaths.recovery "/verify"
        emailChange := orDefault config.urlPaths.emailChange "/verify" }
    -- 1 day
    otpExp := if config.otpExp = 0 then 86400 else config.otpExp
    otpLength := otpLengthDefault config.otpLength }

/-- A phone number without a leading `+` and without spaces. -/
def formatPhone (phone : Bytes) : Bytes :=
  (if phone.head? = some 0x2b then phone.tail else phone).filter (· ≠ 0x20)

/-- The defaults of the SMS provider. -/
def smsDefaults (config : SmsProviderConfiguration T) : SmsProviderConfiguration T :=
  { config with
    maxFrequency := if config.maxFrequency = 0 then minute else config.maxFrequency
    otpExp := if config.otpExp = 0 then 60 else config.otpExp
    otpLength := otpLengthDefault config.otpLength
    testOTP := config.testOTP.map fun otps =>
      Dict.insertAll ∅ ((ranges.testOTP.visit otps).map fun e => ⟨formatPhone e.1, e.2⟩) }

/-- `glob.MustCompile`: a pattern that does not compile panics. -/
def mustCompile (uri : Bytes) : Except Failure T.Glob :=
  (lib.compileGlob uri).mapError .panic

/-- The loop over the allow list: each of its patterns is compiled, and one that does not compile
ends the program. -/
def compileAllowList (uris : List Bytes) : Except Failure (Dict Bytes T.Glob) :=
  uris.foldlM (fun m uri => do return m.insert uri (← mustCompile lib uri)) ∅

/-- 300 seconds. -/
def defaultExpiryDuration : Int := 300000000000

/-- The defaults of the second factors. -/
def mfaDefaults (config : MFAConfiguration T) : MFAConfiguration T :=
  { config with
    challengeExpiryDuration :=
      if config.challengeExpiryDuration < 300 then 300 else config.challengeExpiryDuration
    factorExpiryDuration := max config.factorExpiryDuration defaultExpiryDuration
    phone := { config.phone with
      maxFrequency := if config.phone.maxFrequency = 0 then minute else config.phone.maxFrequency
      otpLength := otpLengthDefault config.phone.otpLength } }

/-- The defaults of the providers. -/
def externalDefaults (config : ProviderConfiguration) : ProviderConfiguration where
  flowStateExpiryDuration := max config.flowStateExpiryDuration defaultExpiryDuration
  allowedIdTokenIssuers := if config.allowedIdTokenIssuers.length = 0 then
    [ascii "https://appleid.apple.com", ascii "https://accounts.google.com"]
    else config.allowedIdTokenIssuers

/-- The error of a mailer that confirms all addresses and lets unverified ones sign in. -/
def autoconfirmError : Bytes :=
  ascii "cannot enable both GOTRUE_MAILER_AUTOCONFIRM and GOTRUE_MAILER_ALLOW_UNVERIFIED_EMAIL_SIGN_INS"

/-- A mailer must not do both. -/
def checkAutoconfirm (config : MailerConfiguration) : Except Bytes Unit :=
  if config.autoconfirm && config.allowUnverifiedEmailSignIns then .error autoconfirmError
  else .ok ()

/-- `GlobalConfiguration.ApplyDefaults`: the defaults of each part, one after the other. -/
def applyDefaults (config : GlobalConfiguration T) : Except Failure (GlobalConfiguration T) := do
  let jwt ← report (jwtDefaults lib ranges config.jwt)
  report (checkAutoconfirm config.mailer)
  let allowList := config.uriAllowList.getD []
  let allowListMap ← compileAllowList lib allowList
  return { config with
    jwt := jwt
    mailer := mailerDefaults config.mailer
    smtp := { config.smtp with
      maxFrequency := if config.smtp.maxFrequency = 0 then minute else config.smtp.maxFrequency }
    sms := smsDefaults ranges config.sms
    uriAllowList := some allowList
    uriAllowListMap := allowListMap
    password := { config.password with minLength := max config.password.minLength 6 }
    mfa := mfaDefaults config.mfa
    external := externalDefaults config.external }

/-! ### `Validate` -/

/-- `APIConfiguration.Validate`. -/
def APIConfiguration.validate (a : APIConfiguration) : Except Bytes Unit := do
  let _ ← lib.parseRequestURI a.externalURL
  return ()

/-- `DBConfiguration.Validate`. -/
def DBConfiguration.validate (c : DBConfiguration) : DBConfiguration where
  connPercentage := min (max c.connPercentage 0) 100

/-- The headers of a JSON text, or none if there are none. -/
def readHeaders (text : Bytes) (message : String) (old : Option (Dict Bytes (List Bytes))) :
    Except Bytes (Option (Dict Bytes (List Bytes))) :=
  if text ≠ [] then
    match lib.unmarshalHeaders text with
    | .error err => .error (ascii message ++ err)
    | .ok headers => .ok (if headers.entries.length > 0 then some headers else old)
  else .ok old

/-- `SMTPConfiguration.Validate`. -/
def SMTPConfiguration.validate (c : SMTPConfiguration) : Except Bytes SMTPConfiguration := do
  let headers ← readHeaders lib c.headers "conf: SMTP headers not a map[string][]string format: "
    c.normalizedHeaders
  return { c with
    normalizedHeaders := headers
    fromAddress := lib.formatAddress c.adminEmail c.senderName }

/-- `MailerConfiguration.Validate`. -/
def MailerConfiguration.validate (c : MailerConfiguration) : Except Bytes MailerConfiguration := do
  let headers ← readHeaders lib c.emailValidationServiceHeaders
    "conf: mailer validation headers not a map[string][]string format: " c.serviceHeaders
  -- EmailValidationBlockedMX is a JSON array in the config string for brevity.
  let blocked ← if c.emailValidationBlockedMX ≠ [] then
    match lib.unmarshalStrings c.emailValidationBlockedMX with
    | .error err =>
      .error (ascii "conf: email_validation_blocked_mx is not a valid JSON array: " ++ err)
    | .ok records => pure (some (Dict.insertAll ∅
        (records.flatMap fun record => [⟨record, true⟩, ⟨record ++ ascii ".", true⟩])))
    else pure none
  return { c with serviceHeaders := headers, blockedMXRecords := blocked }

/-- `SAMLConfiguration.Validate`. -/
def SAMLConfiguration.validate (c : SAMLConfiguration T) : Except Bytes Unit := do
  if c.enabled then
    let bytes ← (lib.decodeBase64 c.privateKey).mapError fun _ =>
      ascii "SAML private key not in standard Base64 format"
    let privateKey ← (lib.parsePKCS1PrivateKey bytes).mapError fun _ =>
      ascii "SAML private key not in PKCS#1 format"
    if lib.rsaExponent privateKey ≠ 0x10001 then
      throw (ascii "SAML private key should use the 65537 (0x10001) RSA public exponent")
    if lib.rsaBitLen privateKey < 2048 then
      throw (ascii "SAML private key must be at least RSA 2048")
    if c.relayStateValidityPeriod < 0 then
      throw (ascii "SAML RelayState validity period should be a positive duration")
    if c.externalURL ≠ [] then
      let _ ← lib.parseRequestURI c.externalURL

/-- `CaptchaConfiguration.Validate`. -/
def CaptchaConfiguration.validate (c : CaptchaConfiguration) :
    Except Bytes CaptchaConfiguration := do
  if c.enabled = false then return c
  if c.provider ≠ ascii "hcaptcha" ∧ c.provider ≠ ascii "turnstile" then
    throw (ascii "unsupported captcha provider: " ++ c.provider)
  let c := { c with secret := lib.trimSpace c.secret }
  if c.secret = [] then throw (ascii "captcha provider secret is empty")
  return c

/-- The loop of `DatabaseEncryptionConfiguration.Validate`: every entry is the text of a key of 256
bits. -/
def validateDecryptionKeys : List (Entry Bytes Bytes) → Except Bytes Unit
  | [] => return ()
  | ⟨id, key⟩ :: rest => do
    let decodedKey ← lib.decodeBase64URL key
    if decodedKey.length ≠ 256 / 8 then
      throw (ascii "conf: decryption key with ID " ++ lib.quote id ++ ascii " must be 256 bits")
    validateDecryptionKeys rest

/-- `DatabaseEncryptionConfiguration.Validate`: a configuration that encrypts has a key of 256 bits
and an entry under its id, and all entries are keys. It does not compare the entry with the key. -/
def DatabaseEncryptionConfiguration.validate (c : DatabaseEncryptionConfiguration) :
    Except Bytes Unit := do
  if c.encrypt then
    if c.encryptionKeyID = [] then throw (ascii "conf: encryption key ID must be specified")
    let decodedKey ← lib.decodeBase64URL c.encryptionKey
    if decodedKey.length ≠ 256 / 8 then throw (ascii "conf: encryption key is not 256 bits")
    if (c.decryptionKeys.lookup c.encryptionKeyID).getD [] = [] then
      throw (ascii "conf: encryption key must also be present in decryption keys")
  validateDecryptionKeys lib (ranges.decryptionKeys.visit c.decryptionKeys)

/-- `SecurityConfiguration.Validate`. -/
def SecurityConfiguration.validate (c : SecurityConfiguration) :
    Except Bytes SecurityConfiguration := do
  let captcha ← c.captcha.validate lib
  c.dbEncryption.validate lib ranges
  return { c with captcha := captcha }

/-- A duration of a session is positive when set. -/
def validatePositive (what : String) (d : Option Int) : Except Bytes Unit :=
  match d with
  | some d =>
    if d ≤ 0 then .error (ascii "conf: session " ++ ascii what ++
      ascii " duration must be positive when set, was " ++ lib.formatDuration d)
    else .ok ()
  | none => .ok ()

/-- `SessionsConfiguration.Validate`. -/
def SessionsConfiguration.validate (c : SessionsConfiguration) : Except Bytes Unit := do
  validatePositive lib "timebox" c.timebox
  validatePositive lib "inactivity timeout" c.inactivityTimeout
  validatePositive lib "allow low AAL" c.allowLowAAL

/-- A letter or an underscore. -/
def IsNameStart (b : UInt8) : Prop :=
  (0x61 ≤ b ∧ b ≤ 0x7a) ∨ (0x41 ≤ b ∧ b ≤ 0x5a) ∨ b = 0x5f
  deriving Decidable

/-- A letter, a digit or an underscore. -/
def IsNamePart (b : UInt8) : Prop := IsNameStart b ∨ (0x30 ≤ b ∧ b ≤ 0x39)
  deriving Decidable

/-- `postgresNamesRegexp`: `^[a-zA-Z_][a-zA-Z0-9_]\x7b0,62\x7d$`. -/
def MatchesPostgresNames (name : Bytes) : Prop :=
  ∃ b rest, name = b :: rest ∧ IsNameStart b ∧ rest.length ≤ 62 ∧ ∀ c ∈ rest, IsNamePart c

instance (name : Bytes) : Decidable (MatchesPostgresNames name) :=
  match name with
  | [] => .isFalse (by rintro ⟨b, rest, heq, -⟩; cases heq)
  | b :: rest =>
    decidable_of_iff (IsNameStart b ∧ rest.length ≤ 62 ∧ rest.all (IsNamePart ·) = true) (by
      simp only [List.all_eq_true, decide_eq_true_eq]
      exact ⟨fun h => ⟨b, rest, rfl, h⟩, by rintro ⟨_, _, ⟨⟩, h⟩; exact h⟩)

/-- `validatePostgresPath`: the path names a schema and a table, both with names of the database. -/
def validatePostgresPath (u : Url) : Except Failure Unit := do
  let pathParts := u.path.splitOn 0x2f
  if pathParts.length < 3 then
    throw (.error (ascii "URI path does not contain enough parts"))
  let schema ← index pathParts 1
  let table ← index pathParts 2
  -- Validate schema and table names
  if ¬MatchesPostgresNames schema then
    throw (.error (ascii "invalid schema name: " ++ schema))
  if ¬MatchesPostgresNames table then
    throw (.error (ascii "invalid table name: " ++ table))

/-- A character of the secrets. -/
def IsBase64 (b : UInt8) : Prop :=
  IsNameStart b ∧ b ≠ 0x5f ∨ (0x30 ≤ b ∧ b ≤ 0x39) ∨ b = 0x2b ∨ b = 0x2f ∨ b = 0x3d
  deriving Decidable

/-- `symmetricSecretFormat`. The pattern is not anchored at the end. -/
def matchesSymmetricFormat (secret : Bytes) : Bool :=
  let key := secret.drop (ascii "v1,whsec_").length
  (ascii "v1,whsec_").isPrefixOf secret && 32 ≤ (key.takeWhile IsBase64).length

/-- `asymmetricSecretFormat`. -/
def matchesAsymmetricFormat (secret : Bytes) : Bool :=
  let key := secret.drop (ascii "v1a,whpk_").length
  let rest := key.dropWhile IsBase64
  let key' := rest.drop (ascii ":whsk_").length
  (ascii "v1a,whpk_").isPrefixOf secret && 44 ≤ (key.takeWhile IsBase64).length &&
    (ascii ":whsk_").isPrefixOf rest && 44 ≤ key'.length && key'.all IsBase64

/-- `isValidSecretFormat`. -/
def isValidSecretFormat (secret : Bytes) : Bool :=
  matchesSymmetricFormat secret || matchesAsymmetricFormat secret

/-- `validateHTTPHookSecrets`. -/
def validateHTTPHookSecrets (secrets : List Bytes) : Except Bytes Unit :=
  if secrets.all isValidSecretFormat then .ok () else .error (ascii "invalid secret format")

/-- `ValidateExtensibilityPoint`: the URI is one of a function of the database, or of a web hook. -/
def ExtensibilityPoint.validate (e : ExtensibilityPoint) : Except Failure Unit := do
  if e.uri = [] then return ()
  let u ← report (lib.parseURL e.uri)
  let scheme := u.scheme.map lowerByte
  if scheme = ascii "pg-functions" then validatePostgresPath u
  else if scheme = ascii "http" then
    if u.hostname ∈ [ascii "localhost", ascii "127.0.0.1", ascii "::1",
        ascii "host.docker.internal"] then
      report (validateHTTPHookSecrets e.httpHookSecrets)
    else throw (.error (ascii "only localhost, 127.0.0.1, and ::1 are supported with http"))
  else if scheme = ascii "https" then report (validateHTTPHookSecrets e.httpHookSecrets)
  else throw (.error
    (ascii "only postgres hooks and HTTPS functions are supported at the moment"))

/-- The hooks in the order in which they are checked. -/
def validatedHooks : List HookKind :=
  [.mfaVerificationAttempt, .passwordVerificationAttempt, .customAccessToken, .sendSMS, .sendEmail,
    .beforeUserCreated, .afterUserCreated]

/-- `HookConfiguration.Validate`: the hooks are checked one by one. One without a URI passes. -/
def HookConfiguration.validate (h : HookConfiguration) : Except Failure Unit :=
  validatedHooks.forM fun kind => (h kind).validate lib

/-- `GlobalConfiguration.Validate`. Those of the tracing and of the metrics accept everything. -/
def GlobalConfiguration.validate (c : GlobalConfiguration T) :
    Except Failure (GlobalConfiguration T) := do
  report (c.api.validate lib)
  let smtp ← report (c.smtp.validate lib)
  let mailer ← report (c.mailer.validate lib)
  report (c.saml.validate lib)
  let security ← report (c.security.validate lib ranges)
  report (c.sessions.validate lib)
  HookConfiguration.validate lib c.hook
  report (Auth.validate lib.jwk ranges.keys c.jwt.keys)
  return { c with db := c.db.validate, smtp := smtp, mailer := mailer, security := security }

/-! ### `populateGlobal` -/

/-- `PopulateExtensibilityPoint`: a hook of the database gets the name of its function. -/
def ExtensibilityPoint.populate (e : ExtensibilityPoint) : Except Failure ExtensibilityPoint := do
  let u ← report (lib.parseURL e.uri)
  if u.scheme = ascii "pg-functions" then
    let pathParts := u.path.splitOn 0x2f
    let schema ← index pathParts 1
    let function ← index pathParts 2
    return { e with hookName := lib.quote schema ++ ascii "." ++ lib.quote function }
  return e

/-- A hook is populated if it is enabled. -/
def populateHook (h : HookConfiguration) (kind : HookKind) : Except Failure HookConfiguration :=
  if (h kind).enabled then ((h kind).populate lib).map (Function.update h kind) else .ok h

/-- The hooks in the order in which they are populated. -/
def populatedHooks : List HookKind :=
  [.passwordVerificationAttempt, .sendSMS, .sendEmail, .mfaVerificationAttempt, .customAccessToken,
    .beforeUserCreated, .afterUserCreated]

/-- `SAMLConfiguration.PopulateFields`: the key is decoded and a certificate is made for it. -/
def SAMLConfiguration.populateFields (c : SAMLConfiguration T) (externalURL : Bytes) :
    Except Bytes (SAMLConfiguration T) := do
  let bytes ← (lib.decodeBase64 c.privateKey).mapError
    (ascii "saml: PopulateFields: invalid base64: " ++ ·)
  let privateKey ← (lib.parsePKCS1PrivateKey bytes).mapError
    (ascii "saml: PopulateFields: invalid private key: " ++ ·)
  let parsedHost ← (lib.parseRequestURI externalURL).mapError
    (ascii "saml: unable to parse external URL for SAML, check API_EXTERNAL_URL: " ++ ·)
  let host := match lib.splitHostPort parsedHost with
    | .ok host => host
    | .error _ => parsedHost
  let certDer ← lib.createCertificate
    ⟨ascii "_samlsp." ++ host, ascii "SAML 2.0 Certificate for " ++ host,
      c.allowEncryptedAssertions⟩
    privateKey
  let certificate ← lib.parseCertificate certDer
  return { c with
    rsaPrivateKey := some privateKey
    certificate := some certificate
    relayStateValidityPeriod :=
      if c.relayStateValidityPeriod = 0 then 2 * minute else c.relayStateValidityPeriod }

/-- The template of a message with a code. -/
def parseSMSTemplate (text : Bytes) : Except Bytes T.Template :=
  lib.parseTemplate (orDefault text "Your code is \x7b\x7b .Code \x7d\x7d")

/-- The template is parsed if it is needed. -/
def populateTemplate (needed : Bool) (text : Bytes) (old : Option T.Template) :
    Except Bytes (Option T.Template) :=
  if needed then (parseSMSTemplate lib text).map some else .ok old

/-- The fields of the SAML configuration are set if it is enabled. -/
def populateSAML (c : SAMLConfiguration T) (externalURL : Bytes) :
    Except Bytes (SAMLConfiguration T) :=
  if c.enabled then c.populateFields lib externalURL else .ok { c with privateKey := [] }

/-- `populateGlobal`: what other fields are made from is filled in. -/
def populateGlobal (config : GlobalConfiguration T) : Except Failure (GlobalConfiguration T) := do
  let hook ← populatedHooks.foldlM (populateHook lib) config.hook
  let saml ← report (populateSAML lib config.saml config.api.externalURL)
  let smsTemplate ← report
    (populateTemplate lib (config.sms.provider ≠ []) config.sms.template config.sms.smsTemplate)
  let phone := config.mfa.phone
  let phoneTemplate ← report (populateTemplate lib (phone.enrollEnabled || phone.verifyEnabled)
    phone.template phone.smsTemplate)
  return { config with
    hook := hook
    saml := saml
    sms := { config.sms with smsTemplate := smsTemplate }
    mfa := { config.mfa with phone := { phone with smsTemplate := phoneTemplate } } }

/-- `loadGlobal`: the environment is read, the defaults are set, the configuration is checked, and
what is made from other fields is filled in. -/
def loadGlobal (env : T.Env) : Except Failure (GlobalConfiguration T) := do
  let config ← processEnv lib env
  let config ← applyDefaults lib ranges config
  let config ← config.validate lib ranges
  populateGlobal lib config

end

end TSubSpec.Auth
