import TSubSpec.Auth.Configuration

/-!
# `TSubSpec.Auth.Loading`: loading does not panic

The first phase compiles the patterns of the allow list with a function that panics on a bad one,
and nothing has checked them. `safeLoading_iff` says that this is the only way to panic. The last
phase takes parts of a path out of a list that may be too short, and there the second phase has
checked the path (`ExtensibilityPoint.populate_of_validate`).
-/

set_option autoImplicit false

namespace TSubSpec.Auth

open TSubSpec.Lib

/-! ### Results without a panic -/

/-- The call does not panic. It may end with an error. -/
def NoPanic {α : Type} (result : Except Failure α) : Prop := ∀ text, result ≠ .error (.panic text)

section

variable {α β : Type}

@[simp] theorem ok_bind (a : α) (f : α → Except Failure β) : (Except.ok a >>= f) = f a := rfl

@[simp] theorem report_ok (a : α) : report (.ok a) = .ok a := rfl

/-- A value is no panic. -/
theorem noPanic_ok (a : α) : NoPanic (.ok a) := nofun

/-- An error is no panic. -/
theorem noPanic_error (text : Bytes) : NoPanic (.error (.error text) : Except Failure α) := nofun

/-- A result of a library call that returns an error is no panic. -/
theorem noPanic_report (result : Except Bytes α) : NoPanic (report result) := by
  cases result with
  | error text => exact noPanic_error text
  | ok a => exact noPanic_ok a

/-- Without a panic there is an error or a value. -/
theorem NoPanic.cases {result : Except Failure α} (h : NoPanic result) :
    (∃ text, result = .error (.error text)) ∨ ∃ a, result = .ok a := by
  cases result with
  | error failure =>
    cases failure with
    | error text => exact .inl ⟨text, rfl⟩
    | panic text => exact absurd rfl (h text)
  | ok a => exact .inr ⟨a, rfl⟩

/-- Two steps one after the other do not panic if neither does. -/
theorem NoPanic.bind {result : Except Failure α} {f : α → Except Failure β} (h : NoPanic result)
    (hf : ∀ a, result = .ok a → NoPanic (f a)) : NoPanic (result >>= f) := by
  rcases h.cases with ⟨text, rfl⟩ | ⟨a, rfl⟩
  · exact noPanic_error text
  · exact hf a rfl

/-- Mapping a result adds no panic. -/
theorem NoPanic.map {result : Except Failure α} (h : NoPanic result) (f : α → β) :
    NoPanic (result.map f) := by
  rcases h.cases with ⟨text, rfl⟩ | ⟨a, rfl⟩
  · exact noPanic_error text
  · exact noPanic_ok _

/-- A value that is passed on. -/
theorem exists_of_bind_eq_ok {ε : Type} {result : Except ε α} {f : α → Except ε β} {b : β}
    (h : (result >>= f) = .ok b) : ∃ a, result = .ok a ∧ f a = .ok b := by
  cases result with
  | error failure => cases h
  | ok a => exact ⟨a, rfl, h⟩

/-- An index inside of the slice does not panic. -/
theorem index_of_lt {l : List α} {i : Nat} (h : i < l.length) : index l i = .ok l[i] := by
  rw [index, List.getElem?_eq_getElem h]

end

section

variable {T : Types} {lib : Libraries T} {ranges : Ranges T}

/-! ### Decoders -/

/-- A step of the loop stays inside of the parts. -/
theorem joinEscaped_ok (parts : List Bytes) {i : Nat} (h : i + 1 < parts.length) :
    ∃ parts', joinEscaped parts i = .ok parts' ∧ parts'.length = parts.length := by
  unfold joinEscaped
  rw [index_of_lt (by omega : i < parts.length), ok_bind]
  split
  · exact ⟨parts, rfl, rfl⟩
  · next hne =>
    have hlast : parts[i].length - 1 < parts[i].length := by
      have := List.length_pos_iff.mpr hne
      omega
    rw [index_of_lt hlast, ok_bind]
    split
    · rw [index_of_lt h, ok_bind]
      exact ⟨_, rfl, by simp⟩
    · exact ⟨parts, rfl, rfl⟩

/-- The loop that joins escaped parts keeps the number of parts, so its accesses to the next part
stay inside. Only the last index must be left out. -/
theorem foldlM_joinEscaped {n : Nat} : ∀ (is : List Nat) (parts : List Bytes),
    parts.length = n → (∀ i ∈ is, i + 1 < n) → ∃ parts', is.foldlM joinEscaped parts = .ok parts'
  | [], parts, _, _ => ⟨parts, rfl⟩
  | i :: is, parts, hlength, his => by
    obtain ⟨parts', hstep, hlength'⟩ :=
      joinEscaped_ok parts (hlength ▸ his i List.mem_cons_self)
    rw [List.foldlM_cons, hstep]
    exact foldlM_joinEscaped is parts' (hlength'.trans hlength)
      fun j hj => his j (List.mem_cons_of_mem _ hj)

/-- The decoder for the required characters does not panic. -/
theorem noPanic_decodeRequiredCharacters (value : Bytes) :
    NoPanic (decodeRequiredCharacters value) := by
  unfold decodeRequiredCharacters
  obtain ⟨parts', hparts⟩ := foldlM_joinEscaped
    (List.range ((value.splitOn 0x3a).length - 1)) (value.splitOn 0x3a) rfl
    (fun i hi => by have := List.mem_range.mp hi; omega)
  show NoPanic (List.foldlM joinEscaped _ _ >>= _)
  rw [hparts]
  exact noPanic_ok _

/-- The decoder for rates does not panic. -/
theorem noPanic_decodeRate (value : Bytes) : NoPanic (decodeRate lib value) := by
  unfold decodeRate
  split
  · exact noPanic_ok _
  · show NoPanic (if _ then _ else _)
    split
    · exact noPanic_error _
    · next hlength =>
      rw [ne_eq, not_not] at hlength
      rw [index_of_lt (by omega), index_of_lt (by omega)]
      exact (noPanic_report _).bind fun _ _ => (noPanic_report _).bind fun _ _ => noPanic_ok _

/-- A field does not panic if its decoder does not. One that is not set keeps its value. -/
theorem noPanic_decodeField {α : Type} {decoder : Bytes → Except Failure α} {old : α}
    (h : ∀ value, NoPanic (decoder value)) (value : Option Bytes) :
    NoPanic (decodeField decoder old value) := by
  cases value with
  | none => exact noPanic_ok _
  | some value => exact h value

/-- Reading the environment does not panic: each field is decoded on its own. -/
theorem noPanic_processEnv (env : T.Env) : NoPanic (processEnv lib env) :=
  (noPanic_report _).bind fun _ _ =>
    (noPanic_decodeField noPanic_decodeRate _).bind fun _ _ =>
    (noPanic_decodeField noPanic_decodeRate _).bind fun _ _ =>
    (noPanic_decodeField noPanic_decodeRequiredCharacters _).bind fun _ _ =>
    (noPanic_decodeField (fun _ => noPanic_report _) _).bind fun _ _ => noPanic_ok _

/-! ### The checks -/

/-- The parts of a path that passes the check. -/
structure PostgresPath (u : Url) (schema table : Bytes) : Prop where
  schema_eq : index (u.path.splitOn 0x2f) 1 = .ok schema
  table_eq : index (u.path.splitOn 0x2f) 2 = .ok table
  schema_name : MatchesPostgresNames schema
  table_name : MatchesPostgresNames table

/-- The check of a path fails with an error, or finds the two names. -/
theorem validatePostgresPath_cases (u : Url) :
    (∃ text, validatePostgresPath u = .error (.error text)) ∨
      validatePostgresPath u = .ok () ∧ ∃ schema table, PostgresPath u schema table := by
  unfold validatePostgresPath
  by_cases hlength : (u.path.splitOn 0x2f).length < 3
  · exact Or.inl ⟨_, by rw [if_pos hlength]; rfl⟩
  · have hschema : 1 < (u.path.splitOn 0x2f).length := by omega
    have htable : 2 < (u.path.splitOn 0x2f).length := by omega
    rw [if_neg hlength, index_of_lt hschema, index_of_lt htable]
    simp only [ok_bind]
    by_cases hnameS : MatchesPostgresNames (u.path.splitOn 0x2f)[1]
    · by_cases hnameT : MatchesPostgresNames (u.path.splitOn 0x2f)[2]
      · right
        rw [if_neg (not_not.mpr hnameS), if_neg (not_not.mpr hnameT)]
        exact ⟨rfl, _, _, index_of_lt hschema, index_of_lt htable, hnameS, hnameT⟩
      · exact Or.inl ⟨_, by rw [if_neg (not_not.mpr hnameS), if_pos hnameT]; rfl⟩
    · exact Or.inl ⟨_, by rw [if_pos hnameS]; rfl⟩

/-- The check of a Postgres hook's path looks only at parts that it counted before. -/
theorem noPanic_validatePostgresPath (u : Url) : NoPanic (validatePostgresPath u) := by
  rcases validatePostgresPath_cases u with ⟨text, h⟩ | ⟨h, -⟩
  · rw [h]
    exact noPanic_error text
  · rw [h]
    exact noPanic_ok ()

/-- The check of a hook does not panic, whatever its URI. -/
theorem ExtensibilityPoint.noPanic_validate (e : ExtensibilityPoint) :
    NoPanic (e.validate lib) := by
  unfold ExtensibilityPoint.validate
  split
  · exact noPanic_ok ()
  · refine (noPanic_report _).bind fun u _ => ?_
    dsimp only
    split
    · exact noPanic_validatePostgresPath u
    · split
      · split
        · exact noPanic_report _
        · exact noPanic_error _
      · split
        · exact noPanic_report _
        · exact noPanic_error _

/-- The URI is that of a function of the database. -/
def IsPostgres (lib : Libraries T) (e : ExtensibilityPoint) (u : Url) : Prop :=
  lib.parseURL e.uri = .ok u ∧ u.scheme.map lowerByte = ascii "pg-functions"

/-- A hook that passes the check, and whose URI is that of a function, names one. -/
theorem ExtensibilityPoint.exists_of_validate {e : ExtensibilityPoint} {u : Url}
    (h : e.validate lib = .ok ()) (hu : IsPostgres lib e u) :
    ∃ schema table, PostgresPath u schema table := by
  obtain ⟨hparse, hscheme⟩ := hu
  have hne : e.uri ≠ [] := by
    intro hnil
    rw [hnil] at hparse
    rw [lib.parseURL_nil u hparse] at hscheme
    cases hscheme
  unfold ExtensibilityPoint.validate at h
  rw [if_neg hne, hparse] at h
  have hpath : (if u.scheme.map lowerByte = ascii "pg-functions" then validatePostgresPath u
    else _) = .ok () := h
  rw [if_pos hscheme] at hpath
  rcases validatePostgresPath_cases u with ⟨text, herror⟩ | ⟨-, hexists⟩
  · cases hpath.symm.trans herror
  · exact hexists

/-- A loop of checks does not panic if no check does. -/
theorem noPanic_forM {α : Type} {f : α → Except Failure Unit} (h : ∀ a, NoPanic (f a)) :
    ∀ l : List α, NoPanic (l.forM f)
  | [] => noPanic_ok ()
  | a :: l => (h a).bind fun _ _ => noPanic_forM h l

/-- A loop of checks succeeds only if every check does. -/
theorem forM_eq_ok {α : Type} {f : α → Except Failure Unit} :
    ∀ {l : List α}, l.forM f = .ok () → ∀ a ∈ l, f a = .ok ()
  | [], _, _, ha => by cases ha
  | b :: l, h, a, ha => by
    obtain ⟨_, hb, hl⟩ := exists_of_bind_eq_ok h
    rcases List.mem_cons.mp ha with rfl | ha
    · exact hb
    · exact forM_eq_ok hl a ha

/-- The checks go over every hook. -/
theorem mem_validatedHooks (kind : HookKind) : kind ∈ validatedHooks := by
  cases kind
  all_goals decide

/-- The checks of a configuration do not panic. -/
theorem GlobalConfiguration.noPanic_validate (c : GlobalConfiguration T) :
    NoPanic (c.validate lib ranges) :=
  (noPanic_report _).bind fun _ _ => (noPanic_report _).bind fun _ _ =>
    (noPanic_report _).bind fun _ _ => (noPanic_report _).bind fun _ _ =>
    (noPanic_report _).bind fun _ _ => (noPanic_report _).bind fun _ _ =>
    (noPanic_forM (fun _ => ExtensibilityPoint.noPanic_validate _) _).bind fun _ _ =>
    (noPanic_report _).bind fun _ _ => noPanic_ok _

/-- What a configuration that passes all checks has passed. -/
theorem GlobalConfiguration.of_validate {c c' : GlobalConfiguration T}
    (h : c.validate lib ranges = .ok c') : c'.hook = c.hook ∧ c'.jwt = c.jwt ∧
      (∀ kind, (c.hook kind).validate lib = .ok ()) ∧
      Auth.validate lib.jwk ranges.keys c.jwt.keys = .ok () := by
  obtain ⟨_, -, h⟩ := exists_of_bind_eq_ok h
  obtain ⟨smtp, -, h⟩ := exists_of_bind_eq_ok h
  obtain ⟨mailer, -, h⟩ := exists_of_bind_eq_ok h
  obtain ⟨_, -, h⟩ := exists_of_bind_eq_ok h
  obtain ⟨security, -, h⟩ := exists_of_bind_eq_ok h
  obtain ⟨_, -, h⟩ := exists_of_bind_eq_ok h
  obtain ⟨_, hhook, h⟩ := exists_of_bind_eq_ok h
  obtain ⟨_, hkeys, h⟩ := exists_of_bind_eq_ok h
  cases h
  refine ⟨rfl, rfl, fun kind => forM_eq_ok hhook kind (mem_validatedHooks kind), ?_⟩
  cases hvalidate : Auth.validate lib.jwk ranges.keys c.jwt.keys with
  | error text =>
    rw [hvalidate] at hkeys
    cases hkeys
  | ok _ => rfl

/-! ### The names of the hooks -/

/-- The hook has the name of a function, in quotes, if its URI is that of a function. Hooks with
other URIs have no name. -/
def HookNamed (lib : Libraries T) (e : ExtensibilityPoint) : Prop :=
  ∀ u, IsPostgres lib e u → ∃ schema function, MatchesPostgresNames schema ∧
    MatchesPostgresNames function ∧
    e.hookName = ascii "\"" ++ schema ++ ascii "\".\"" ++ function ++ ascii "\""

/-- A name is put in quotes as it is. -/
theorem quote_of_matches {name : Bytes} (h : MatchesPostgresNames name) :
    lib.quote name = ascii "\"" ++ name ++ ascii "\"" := by
  obtain ⟨b, rest, rfl, hb, -, hrest⟩ := h
  have hplain : ∀ c : UInt8, IsNamePart c → 0x20 ≤ c ∧ c < 0x7f ∧ c ≠ 0x22 ∧ c ≠ 0x5c := by
    intro c hc
    rw [IsNamePart, IsNameStart] at hc
    simp only [UInt8.le_iff_toNat_le, UInt8.lt_iff_toNat_lt, ← UInt8.toNat_inj, ne_eq,
      UInt8.reduceToNat] at hc ⊢
    omega
  apply lib.quote_plain
  intro c hc
  rcases List.mem_cons.mp hc with rfl | hc
  · exact hplain c (.inl hb)
  · exact hplain c (hrest c hc)

/-- A hook that has passed the check is populated without a panic, and gets its name. -/
theorem ExtensibilityPoint.populate_of_validate {e : ExtensibilityPoint}
    (h : e.validate lib = .ok ()) : NoPanic (e.populate lib) ∧
      ∀ e', e.populate lib = .ok e' → HookNamed lib e' ∧ e'.enabled = e.enabled ∧
        e'.validate lib = .ok () := by
  unfold ExtensibilityPoint.populate
  cases hparse : lib.parseURL e.uri with
  | error text => exact ⟨noPanic_error text, nofun⟩
  | ok u =>
    rw [report_ok, ok_bind]
    by_cases hscheme : u.scheme = ascii "pg-functions"
    · -- The check has left two names behind, so `populate` finds both parts of the path.
      have hu : IsPostgres lib e u := ⟨hparse, u.scheme_lower.trans hscheme⟩
      obtain ⟨schema, table, hpath⟩ := exists_of_validate h hu
      rw [if_pos hscheme]
      dsimp only
      rw [hpath.schema_eq, hpath.table_eq, ok_bind, ok_bind]
      refine ⟨noPanic_ok _, ?_⟩
      rintro e' ⟨⟩
      refine ⟨fun u' hu' => ⟨schema, table, hpath.schema_name, hpath.table_name, ?_⟩, rfl, h⟩
      show lib.quote schema ++ ascii "." ++ lib.quote table = _
      rw [quote_of_matches hpath.schema_name, quote_of_matches hpath.table_name]
      have hdot : ascii "\"" ++ ascii "." ++ ascii "\"" = ascii "\".\"" := by decide
      rw [← hdot]
      simp only [List.append_assoc]
    · rw [if_neg hscheme]
      refine ⟨noPanic_ok _, ?_⟩
      rintro e' ⟨⟩
      refine ⟨fun u' hu' => ?_, rfl, h⟩
      cases hparse.symm.trans hu'.1
      exact absurd (u.scheme_lower.symm.trans hu'.2) hscheme

/-- Every hook has passed the check, and those that are done have their names. -/
structure HookInvariant (lib : Libraries T) (done : List HookKind) (h : HookConfiguration) :
    Prop where
  valid : ∀ kind, (h kind).validate lib = .ok ()
  named : ∀ kind ∈ done, (h kind).enabled = true → HookNamed lib (h kind)

/-- Filling in one hook does not panic, and keeps what is known of those before it. -/
theorem HookInvariant.step {done : List HookKind} {h : HookConfiguration}
    (hinv : HookInvariant lib done h) (kind : HookKind) : NoPanic (populateHook lib h kind) ∧
      ∀ h', populateHook lib h kind = .ok h' → HookInvariant lib (kind :: done) h' := by
  unfold populateHook
  split
  · obtain ⟨hnoPanic, hok⟩ := ExtensibilityPoint.populate_of_validate (hinv.valid kind)
    refine ⟨hnoPanic.map _, fun h' hh' => ?_⟩
    cases hpopulate : (h kind).populate lib with
    | error failure =>
      rw [hpopulate] at hh'
      cases hh'
    | ok e =>
      rw [hpopulate] at hh'
      cases hh'
      -- `populateHook` changes the one hook, and the others are as they were.
      obtain ⟨hnamed, -, hvalid⟩ := hok e hpopulate
      constructor
      · intro other
        by_cases hother : other = kind
        · subst hother
          rw [Function.update_self]
          exact hvalid
        · rw [Function.update_of_ne hother]
          exact hinv.valid other
      · intro other hmem henabled
        by_cases hother : other = kind
        · subst hother
          rw [Function.update_self]
          exact hnamed
        · rw [Function.update_of_ne hother] at henabled ⊢
          exact hinv.named other ((List.mem_cons.mp hmem).resolve_left hother) henabled
  · next hdisabled =>
    refine ⟨noPanic_ok _, ?_⟩
    rintro h' ⟨⟩
    refine ⟨hinv.valid, fun other hmem henabled => ?_⟩
    rcases List.mem_cons.mp hmem with rfl | hmem
    · exact absurd henabled hdisabled
    · exact hinv.named other hmem henabled

/-- Filling in the hooks one by one: the induction is on the list, and the invariant says which are
done. -/
theorem HookInvariant.foldlM : ∀ (kinds : List HookKind) {done : List HookKind}
    {h : HookConfiguration},
    HookInvariant lib done h → NoPanic (kinds.foldlM (populateHook lib) h) ∧
      ∀ h', kinds.foldlM (populateHook lib) h = .ok h' →
        HookInvariant lib (kinds.reverse ++ done) h'
  | [], done, h, hinv => by
    refine ⟨noPanic_ok _, ?_⟩
    rintro h' ⟨⟩
    exact hinv
  | kind :: kinds, done, h, hinv => by
    obtain ⟨hnoPanic, hok⟩ := hinv.step kind
    rw [List.foldlM_cons]
    refine ⟨hnoPanic.bind fun h' hh' => (HookInvariant.foldlM kinds (hok h' hh')).1,
      fun h' hh' => ?_⟩
    obtain ⟨h'', hstep, hrest⟩ := exists_of_bind_eq_ok hh'
    rw [List.reverse_cons, List.append_assoc]
    exact (HookInvariant.foldlM kinds (hok h'' hstep)).2 h' hrest

/-- Every hook is filled in. -/
theorem mem_populatedHooks (kind : HookKind) : kind ∈ populatedHooks := by
  cases kind
  all_goals decide

/-- The last phase does not panic after the second one, and every enabled hook gets its name. -/
theorem populateGlobal_of_validate {c : GlobalConfiguration T}
    (h : ∀ kind, (c.hook kind).validate lib = .ok ()) : NoPanic (populateGlobal lib c) ∧
      ∀ c', populateGlobal lib c = .ok c' → ∀ kind, (c'.hook kind).enabled = true →
        HookNamed lib (c'.hook kind) := by
  have hinv : HookInvariant lib [] c.hook := ⟨h, nofun⟩
  obtain ⟨hnoPanic, hok⟩ := HookInvariant.foldlM populatedHooks hinv
  constructor
  · exact hnoPanic.bind fun _ _ => (noPanic_report _).bind fun _ _ =>
      (noPanic_report _).bind fun _ _ => (noPanic_report _).bind fun _ _ => noPanic_ok _
  · intro c' hc' kind henabled
    obtain ⟨hook, hhook, hc'⟩ := exists_of_bind_eq_ok hc'
    obtain ⟨saml, -, hc'⟩ := exists_of_bind_eq_ok hc'
    obtain ⟨smsTemplate, -, hc'⟩ := exists_of_bind_eq_ok hc'
    obtain ⟨phoneTemplate, -, hc'⟩ := exists_of_bind_eq_ok hc'
    cases hc'
    refine (hok hook hhook).named kind ?_ henabled
    exact List.mem_append_left _ (List.mem_reverse.mpr (mem_populatedHooks kind))

/-! ### The allow list -/

/-- Compiling the allow list panics exactly when one of its patterns is bad. -/
theorem noPanic_compileAllowList_iff {uris : List Bytes} : NoPanic (compileAllowList lib uris) ↔
    ∀ uri ∈ uris, ∃ g, lib.compileGlob uri = .ok g := by
  have hfold : ∀ m : Dict Bytes T.Glob,
      NoPanic (uris.foldlM (fun m uri => do return m.insert uri (← mustCompile lib uri)) m) ↔
        ∀ uri ∈ uris, ∃ g, lib.compileGlob uri = .ok g := by
    induction uris with
    | nil => exact fun m => ⟨fun _ => nofun, fun _ => noPanic_ok m⟩
    | cons uri uris ih =>
      intro m
      rw [List.foldlM_cons, List.forall_mem_cons, mustCompile]
      cases hcompile : lib.compileGlob uri with
      | error text =>
        constructor
        · intro h
          exact absurd rfl (h text)
        · rintro ⟨⟨g, hg⟩, -⟩
          cases hg
      | ok g =>
        refine (ih (m.insert uri g)).trans ⟨fun h => ⟨⟨g, rfl⟩, h⟩, fun h => h.2⟩
  exact hfold ∅

/-- `ApplyDefaults` gets as far as the allow list: the secret makes a key, if there are no other
keys, and the mailer does not both confirm all addresses and let unverified ones sign in. -/
structure ReachesAllowList (lib : Libraries T) (c : GlobalConfiguration T) : Prop where
  key : c.jwt.keys.entries.length = 0 →
    ∃ jwt, applyDefaultsJWT lib (adminDefaults c.jwt) c.jwt.secret = .ok jwt
  mailer : ¬(c.mailer.autoconfirm = true ∧ c.mailer.allowUnverifiedEmailSignIns = true)

/-- The defaults of the JWT configuration fail only where the secret makes no key. -/
theorem jwtDefaults_ok_iff (ranges : Ranges T) {jwt : JWTConfiguration T.Key} :
    (∃ jwt', report (jwtDefaults lib ranges jwt) = .ok jwt') ↔ (jwt.keys.entries.length = 0 →
      ∃ jwt', applyDefaultsJWT lib (adminDefaults jwt) jwt.secret = .ok jwt') := by
  unfold jwtDefaults keysDefault
  show (∃ jwt', report ((if jwt.keys.entries.length = 0 then
    applyDefaultsJWT lib (adminDefaults jwt) jwt.secret else _).map _) = .ok jwt') ↔ _
  by_cases hempty : jwt.keys.entries.length = 0
  · rw [if_pos hempty]
    cases happly : applyDefaultsJWT lib (adminDefaults jwt) jwt.secret with
    | error text =>
      constructor
      · rintro ⟨jwt', hjwt⟩
        cases hjwt
      · intro h
        obtain ⟨jwt', hjwt⟩ := h hempty
        cases hjwt
    | ok jwt' => exact ⟨fun _ _ => ⟨jwt', rfl⟩, fun _ => ⟨_, rfl⟩⟩
  · rw [if_neg hempty]
    exact ⟨fun _ h => absurd h hempty, fun _ => ⟨_, rfl⟩⟩

/-- The check of the mailer fails exactly when both settings are on. -/
theorem checkAutoconfirm_ok_iff {mailer : MailerConfiguration} :
    report (checkAutoconfirm mailer) = .ok () ↔
      ¬(mailer.autoconfirm = true ∧ mailer.allowUnverifiedEmailSignIns = true) := by
  rw [checkAutoconfirm, ← Bool.and_eq_true]
  split
  · next h => exact ⟨nofun, fun hnot => absurd h hnot⟩
  · next h => exact ⟨fun _ => h, fun _ => rfl⟩

/-- The loading comes to the allow list unless the JWT settings or the mailer's are refused
before. -/
theorem reachesAllowList_iff (ranges : Ranges T) {c : GlobalConfiguration T} :
    ReachesAllowList lib c ↔
      (∃ jwt, report (jwtDefaults lib ranges c.jwt) = .ok jwt) ∧
        report (checkAutoconfirm c.mailer) = .ok () := by
  rw [jwtDefaults_ok_iff, checkAutoconfirm_ok_iff]
  exact ⟨fun h => ⟨h.key, h.mailer⟩, fun h => ⟨h.1, h.2⟩⟩

/-- `ApplyDefaults` panics exactly when it reaches the allow list and a pattern there is bad. -/
theorem noPanic_applyDefaults_iff (ranges : Ranges T) {c : GlobalConfiguration T} :
    NoPanic (applyDefaults lib ranges c) ↔ (ReachesAllowList lib c →
      ∀ uri ∈ c.uriAllowList.getD [], ∃ g, lib.compileGlob uri = .ok g) := by
  rw [← noPanic_compileAllowList_iff, reachesAllowList_iff ranges]
  constructor
  · rintro h ⟨⟨jwt, hjwt⟩, hmailer⟩ text htext
    refine h text ?_
    rw [applyDefaults, hjwt, ok_bind, hmailer, ok_bind]
    dsimp only
    rw [htext]
    rfl
  · intro h
    refine (noPanic_report _).bind fun jwt hjwt => (noPanic_report _).bind fun _ hmailer => ?_
    exact (h ⟨⟨jwt, hjwt⟩, hmailer⟩).bind fun _ _ => noPanic_ok _

/-- `ApplyDefaults` keeps the hooks, and sets the defaults of the JWT configuration. -/
theorem of_applyDefaults {c c' : GlobalConfiguration T} (h : applyDefaults lib ranges c = .ok c') :
    c'.hook = c.hook ∧ jwtDefaults lib ranges c.jwt = .ok c'.jwt := by
  obtain ⟨jwt, hjwt, h⟩ := exists_of_bind_eq_ok h
  obtain ⟨_, -, h⟩ := exists_of_bind_eq_ok h
  obtain ⟨allowListMap, -, h⟩ := exists_of_bind_eq_ok h
  cases h
  refine ⟨rfl, ?_⟩
  cases hdefaults : jwtDefaults lib ranges c.jwt with
  | error text =>
    rw [hdefaults] at hjwt
    cases hjwt
  | ok jwt' =>
    rw [hdefaults] at hjwt
    cases hjwt
    rfl

/-- Whenever loading gets as far as the allow list, the patterns there compile. It does not get
there if the environment or the JWT settings are refused before. -/
def AllowListCompiles (lib : Libraries T) (env : T.Env) : Prop :=
  ∀ c, processEnv lib env = .ok c → ReachesAllowList lib c →
    ∀ uri ∈ c.uriAllowList.getD [], ∃ g, lib.compileGlob uri = .ok g

/-- Loading ends with an error or a configuration, and every enabled hook of the configuration
whose URI is that of a function has the name of that function. -/
def SafeLoading (lib : Libraries T) (env : T.Env) : Prop :=
  ∀ ranges, NoPanic (loadGlobal lib ranges env) ∧ ∀ c, loadGlobal lib ranges env = .ok c →
    ∀ kind, (c.hook kind).enabled = true → HookNamed lib (c.hook kind)

/-- Any order of the loops. -/
def Ranges.default : Ranges T where
  validMethods := ⟨AList.entries, fun _ => .refl _⟩
  testOTP := ⟨AList.entries, fun _ => .refl _⟩
  decryptionKeys := ⟨AList.entries, fun _ => .refl _⟩
  keys := ⟨AList.entries, fun _ => .refl _⟩

/-- For every environment: loading does not panic, and the hooks get their names, if and only if the
patterns of the allow list compile, should loading get there. Every other step fails with an error.
The name of a hook is found whenever its check has passed. -/
theorem safeLoading_iff {env : T.Env} : SafeLoading lib env ↔ AllowListCompiles lib env := by
  constructor
  · intro h c hc
    rw [← noPanic_applyDefaults_iff Ranges.default]
    intro text htext
    refine (h Ranges.default).1 text ?_
    rw [loadGlobal, hc, ok_bind, htext]
    rfl
  · intro h ranges
    -- The hooks that are populated are those that `Validate` has checked.
    have hpopulate : ∀ {c₁ c₂ c₃}, processEnv lib env = .ok c₁ →
        applyDefaults lib ranges c₁ = .ok c₂ → c₂.validate lib ranges = .ok c₃ →
        ∀ kind, (c₃.hook kind).validate lib = .ok () := by
      intro c₁ c₂ c₃ _ _ h₃ kind
      obtain ⟨hhook, -, hvalid, -⟩ := GlobalConfiguration.of_validate h₃
      rw [hhook]
      exact hvalid kind
    constructor
    · refine (noPanic_processEnv env).bind fun c₁ h₁ => ?_
      refine ((noPanic_applyDefaults_iff ranges).mpr (h c₁ h₁)).bind fun c₂ h₂ => ?_
      refine (GlobalConfiguration.noPanic_validate c₂).bind fun c₃ h₃ => ?_
      exact (populateGlobal_of_validate (hpopulate h₁ h₂ h₃)).1
    · intro c hc
      obtain ⟨c₁, h₁, hc⟩ := exists_of_bind_eq_ok hc
      obtain ⟨c₂, h₂, hc⟩ := exists_of_bind_eq_ok hc
      obtain ⟨c₃, h₃, hc⟩ := exists_of_bind_eq_ok hc
      exact (populateGlobal_of_validate (hpopulate h₁ h₂ h₃)).2 c hc

end

/-! ### An environment -/

/-- The types of a small set of packages. -/
abbrev exampleTypes : Types where
  Env := List (Bytes × Bytes)
  Key := ExampleKey
  Raw := Bytes × Bool
  Glob := Bytes
  RsaKey := Bytes
  Certificate := Bytes
  Template := Bytes

/-- A variable of the environment. -/
def getVar (env : List (Bytes × Bytes)) (name : String) : Bytes := (env.lookup (ascii name)).getD []

/-- A hook that is not set. -/
def noHook : ExtensibilityPoint := ⟨[], false, [], []⟩

/-- The fields of an environment that sets the required variables, and the allow list. -/
def exampleConfiguration (env : List (Bytes × Bytes)) : GlobalConfiguration exampleTypes where
  api := ⟨getVar env "API_EXTERNAL_URL"⟩
  db := ⟨0⟩
  external := ⟨0, []⟩
  smtp := ⟨0, [], [], [], [], none⟩
  rateLimitEmailSent := ⟨0, 0, .interval⟩
  rateLimitSmsSent := ⟨0, 0, .interval⟩
  uriAllowList := (env.lookup (ascii "GOTRUE_URI_ALLOW_LIST")).map (·.splitOn 0x2c)
  uriAllowListMap := ∅
  password := ⟨0, []⟩
  jwt := ⟨getVar env "GOTRUE_JWT_SECRET", 0, [], [], [], ∅, none⟩
  mailer := ⟨false, false, ⟨[], [], [], []⟩, 0, 0, [], [], none, none⟩
  sms := ⟨0, 0, 0, [], [], none, none⟩
  hook := fun _ => noHook
  security := ⟨⟨false, ascii "hcaptcha", []⟩, ⟨false, [], [], ∅⟩⟩
  sessions := ⟨none, none, none⟩
  mfa := ⟨300, defaultExpiryDuration, ⟨false, false, 0, none, 0, []⟩⟩
  saml := ⟨false, [], false, 0, none, none, []⟩

/-- `envconfig.Process` on such an environment. -/
def exampleEnvconfig (env : List (Bytes × Bytes)) :
    Except Bytes (GlobalConfiguration exampleTypes × EncodedFields) :=
  let required := ["GOTRUE_DB_DRIVER", "DATABASE_URL", "API_EXTERNAL_URL", "GOTRUE_SITE_URL",
    "GOTRUE_JWT_SECRET"]
  match required.find? fun name => (env.lookup (ascii name)).isNone with
  | some name => .error (ascii "required key " ++ ascii name ++ ascii " missing value")
  | none => .ok (exampleConfiguration env,
      ⟨env.lookup (ascii "GOTRUE_JWT_KEYS"), none, fun _ => none, some (ascii "30"),
        some (ascii "30")⟩)

/-- The functions of the packages on such an environment. A pattern is bad if it opens a class of
characters and does not close it. -/
def exampleLibraries : Libraries exampleTypes where
  jwk := exampleJwx
  envconfig := exampleEnvconfig
  parseFloat value := if value = ascii "30" then some 30 else none
  parseUint52 _ := .error (ascii "invalid syntax")
  parseDuration _ := .error (ascii "invalid duration")
  formatDuration _ := []
  quote s := ascii "\"" ++ s ++ ascii "\""
  quote_plain _ _ := rfl
  trimSpace s := s
  decodeBase64 _ := .error (ascii "illegal base64 data")
  decodeBase64URL _ := .error (ascii "illegal base64 data")
  unmarshalHeaders _ := .error (ascii "invalid character")
  unmarshalStrings _ := .error (ascii "invalid character")
  formatAddress email _ := email
  parseURL uri :=
    if uri = [] then .ok ⟨[], [], [], rfl⟩ else .error (ascii "missing protocol scheme")
  parseURL_nil := by
    rintro u ⟨⟩
    rfl
  parseRequestURI uri :=
    if (ascii "http://").isPrefixOf uri then .ok ((uri.drop 7).takeWhile (· ≠ 0x2f))
    else .error (ascii "invalid URI for request")
  splitHostPort host := .ok (host.takeWhile (· ≠ 0x3a))
  compileGlob uri :=
    if uri.contains 0x5b && !uri.contains 0x5d then .error (ascii "unexpected end of input")
    else .ok uri
  parsePKCS1PrivateKey _ := .error (ascii "asn1: syntax error")
  rsaExponent _ := 0
  rsaBitLen _ := 0
  createCertificate _ _ := .error (ascii "x509: unsupported")
  parseCertificate _ := .error (ascii "x509: malformed certificate")
  parseTemplate text := .ok text

/-- An environment with the required variables and this allow list. -/
def exampleEnv (allowList : String) : List (Bytes × Bytes) :=
  [(ascii "GOTRUE_DB_DRIVER", ascii "postgres"),
    (ascii "DATABASE_URL", ascii "postgres://localhost/postgres"),
    (ascii "API_EXTERNAL_URL", ascii "http://localhost:9999"),
    (ascii "GOTRUE_SITE_URL", ascii "http://localhost:3000"),
    (ascii "GOTRUE_JWT_SECRET", ascii "testsecret"),
    (ascii "GOTRUE_URI_ALLOW_LIST", ascii allowList)]

/-- The outcome is a panic with this text. -/
def panicsWith {α : Type} (result : Except Failure α) (text : String) : Bool :=
  match result with
  | .error (.panic t) => t = ascii text
  | _ => false

/-- An allow list with an open class of characters makes loading panic, where the other settings
would give an error. -/
theorem load_panics : ¬SafeLoading exampleLibraries (exampleEnv "http://[") := by
  intro h
  have hpanics : panicsWith (loadGlobal exampleLibraries .default (exampleEnv "http://["))
      "unexpected end of input" = true := by decide +kernel
  unfold panicsWith at hpanics
  split at hpanics
  · next text hload => exact (h .default).1 text hload
  · cases hpanics

end TSubSpec.Auth
