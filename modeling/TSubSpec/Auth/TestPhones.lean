import TSubSpec.Auth.Loading

/-!
# `TSubSpec.Auth.TestPhones`: the one-time passwords of test phone numbers

`ApplyDefaults` writes the test phone numbers without spaces and without a `+` in front, and
`GetTestOTP` looks for the digits alone. The `+` is removed before the spaces are, so it stays if a
space is in front of it. And two numbers that are the same without spaces become one key, which
keeps the password of the one that the loop visits last. Other signs in a number stay, so its
digits alone do not find it.

`testOTP_canonical_iff` says that nothing else goes wrong: on a map without such keys the result is
in canonical form, does not depend on the order of the loop, is not changed by a second run, and
has an entry for the digits of every number.
-/

set_option autoImplicit false

namespace TSubSpec.Auth

open TSubSpec.Lib

/-! ### Numbers -/

/-- A digit. -/
def isDigit (b : UInt8) : Bool := 0x30 ≤ b ∧ b ≤ 0x39

/-- The digits of a number. -/
def bareDigits (phone : Bytes) : Bytes := phone.filter isDigit

/-- A phone number: digits and spaces, and at most one `+` in front of the digits. -/
def IsPhone (phone : Bytes) : Prop :=
  ∃ spaces rest, (∀ b ∈ spaces, b = 0x20) ∧ (∀ b ∈ rest, b = 0x20 ∨ isDigit b = true) ∧
    (phone = spaces ++ rest ∨ phone = spaces ++ 0x2b :: rest)

/-- A `+` that stands behind a space or another `+`, with nothing but spaces between them. Only a
`+` at the very front is taken off. -/
def HiddenPlus (phone : Bytes) : Prop :=
  ∃ first spaces rest, phone = first :: (spaces ++ 0x2b :: rest) ∧
    (first = 0x20 ∨ first = 0x2b) ∧ ∀ b ∈ spaces, b = 0x20

/-- The first byte that is not a space. -/
theorem head?_filter_ne_space {s : Bytes} :
    (s.filter (· ≠ 0x20)).head? = some 0x2b ↔
      ∃ spaces rest, s = spaces ++ 0x2b :: rest ∧ ∀ b ∈ spaces, b = 0x20 := by
  rw [List.head?_filter, List.find?_eq_some_iff_append]
  simp

/-- A hidden `+` is what stays in front. -/
theorem head?_formatPhone {phone : Bytes} :
    (formatPhone phone).head? = some 0x2b ↔ HiddenPlus phone := by
  cases phone with
  | nil => simp [formatPhone, HiddenPlus]
  | cons first tail =>
    -- A first byte of the two is dropped, and any other one stays in front.
    by_cases hfirst : first = 0x20 ∨ first = 0x2b
    · have hformat : formatPhone (first :: tail) = tail.filter (· ≠ 0x20) := by
        rcases hfirst with rfl | rfl <;> simp [formatPhone]
      rw [hformat, head?_filter_ne_space]
      constructor
      · rintro ⟨spaces, rest, rfl, hspaces⟩
        exact ⟨first, spaces, rest, rfl, hfirst, hspaces⟩
      · rintro ⟨first, spaces, rest, hphone, -, hspaces⟩
        exact ⟨spaces, rest, (List.cons.inj hphone).2, hspaces⟩
    · obtain ⟨hspace, hplus⟩ := not_or.mp hfirst
      have hformat : (formatPhone (first :: tail)).head? = some first := by
        simp [formatPhone, hplus, hspace]
      rw [hformat]
      refine iff_of_false (fun h => hplus (Option.some.inj h)) ?_
      rintro ⟨first', spaces, rest, hphone, hfirst', -⟩
      exact hfirst ((List.cons.inj hphone).1 ▸ hfirst')

/-- No space stays. -/
theorem space_notMem_formatPhone (phone : Bytes) : 0x20 ∉ formatPhone phone := by
  simp [formatPhone]

/-- A number in canonical form is not changed. -/
theorem formatPhone_of_canonical {phone : Bytes} (hplus : phone.head? ≠ some 0x2b)
    (hspace : 0x20 ∉ phone) : formatPhone phone = phone := by
  rw [formatPhone, if_neg hplus, List.filter_eq_self]
  intro b hb
  exact decide_eq_true fun he : b = 0x20 => hspace (he ▸ hb)

/-- A phone number whose `+` is not hidden is written as its digits. -/
theorem formatPhone_of_isPhone {phone : Bytes} (hphone : IsPhone phone)
    (hplus : ¬ HiddenPlus phone) : formatPhone phone = bareDigits phone := by
  -- Among spaces and digits, the digits are what is no space.
  have hdigits : ∀ s : Bytes, (∀ b ∈ s, b = 0x20 ∨ isDigit b = true) →
      s.filter (· ≠ 0x20) = s.filter isDigit := by
    intro s hs
    apply List.filter_congr
    intro b hb
    rcases hs b hb with rfl | hdigit
    · rfl
    · have hne : b ≠ 0x20 := by
        rintro rfl
        cases hdigit
      simp [hne, hdigit]
  obtain ⟨spaces, rest, hspaces, hrest, rfl | rfl⟩ := hphone
  · have hall : ∀ b ∈ spaces ++ rest, b = 0x20 ∨ isDigit b = true := by
      intro b hb
      rcases List.mem_append.mp hb with hb | hb
      · exact .inl (hspaces b hb)
      · exact hrest b hb
    have hhead : (spaces ++ rest).head? ≠ some 0x2b := by
      intro h
      rcases hall _ (List.mem_of_head? h) with hb | hb <;> cases hb
    rw [formatPhone, if_neg hhead, hdigits _ hall, bareDigits]
  · cases spaces with
    | nil =>
      have hformat : formatPhone (0x2b :: rest) = rest.filter (· ≠ 0x20) := by simp [formatPhone]
      rw [List.nil_append, hformat, hdigits rest hrest]
      rfl
    | cons space spaces =>
      obtain ⟨rfl, hspaces'⟩ := List.forall_mem_cons.mp hspaces
      exact absurd ⟨0x20, spaces, rest, rfl, .inl rfl, hspaces'⟩ hplus

/-- What is written as digits alone was a phone number with these digits. -/
theorem isPhone_of_formatPhone {phone : Bytes} (h : ∀ b ∈ formatPhone phone, isDigit b = true) :
    IsPhone phone ∧ bareDigits phone = formatPhone phone := by
  have hrest : ∀ rest : Bytes, (∀ b ∈ rest.filter (· ≠ 0x20), isDigit b = true) →
      (∀ b ∈ rest, b = 0x20 ∨ isDigit b = true) ∧
        rest.filter isDigit = rest.filter (· ≠ 0x20) := by
    intro rest hdigits
    have hall : ∀ b ∈ rest, b = 0x20 ∨ isDigit b = true := by
      intro b hb
      by_cases hspace : b = 0x20
      · exact .inl hspace
      · exact .inr (hdigits b (List.mem_filter.mpr ⟨hb, decide_eq_true hspace⟩))
    refine ⟨hall, List.filter_congr fun b hb => ?_⟩
    rcases hall b hb with rfl | hdigit
    · rfl
    · have hne : b ≠ 0x20 := by
        rintro rfl
        cases hdigit
      simp [hne, hdigit]
  -- Only a plus at the front is taken off; spaces go wherever they are.
  by_cases hplus : phone.head? = some 0x2b
  · obtain ⟨rest, rfl⟩ : ∃ rest, phone = 0x2b :: rest := by
      cases phone with
      | nil => cases hplus
      | cons first rest => exact ⟨rest, congrArg (· :: rest) (Option.some.inj hplus)⟩
    have hformat : formatPhone (0x2b :: rest) = rest.filter (· ≠ 0x20) := by simp [formatPhone]
    rw [hformat] at h ⊢
    obtain ⟨hall, hfilter⟩ := hrest rest h
    exact ⟨⟨[], rest, nofun, hall, .inr rfl⟩, hfilter⟩
  · rw [formatPhone, if_neg hplus] at h ⊢
    obtain ⟨hall, hfilter⟩ := hrest phone h
    exact ⟨⟨[], phone, nofun, hall, .inl rfl⟩, hfilter⟩

/-- The digits of a number are digits. -/
theorem isDigit_of_mem_bareDigits {phone : Bytes} : ∀ b ∈ bareDigits phone, isDigit b = true :=
  fun _ hb => (List.mem_filter.mp hb).2

/-! ### The map of the result -/

/-- `SmsProviderConfiguration.GetTestOTP`: the password of a number, before the bound. A bound that
is the zero time is `none`. -/
def getTestOTP (testOTP : Option (Dict Bytes Bytes)) (validUntil : Option Int) (phone : Bytes)
    (now : Int) : Option Bytes :=
  match testOTP with
  | some otps => if validUntil.all (now < ·) then otps.lookup phone else none
  | none => none

/-- The two maps hold the same. -/
def SameOTPs (a b : Option (Dict Bytes Bytes)) : Prop :=
  a.isSome = b.isSome ∧ ∀ phone, a.bind (·.lookup phone) = b.bind (·.lookup phone)

/-- The map that the loop makes of `otps`: each number is formatted, and one that comes later in the
order replaces one that is written alike. -/
def formatTestOtps (order : Dict.Iteration Bytes Bytes) (otps : Dict Bytes Bytes) :
    Dict Bytes Bytes :=
  Dict.insertAll ∅ ((order.visit otps).map fun e => ⟨formatPhone e.1, e.2⟩)

section

variable {order : Dict.Iteration Bytes Bytes} {otps : Dict Bytes Bytes} {phone otp : Bytes}

/-- What the loop over the map visits are the entries that are found. -/
theorem mem_visit : (⟨phone, otp⟩ : Entry Bytes Bytes) ∈ order.visit otps ↔
    otps.lookup phone = some otp := by
  rw [(order.perm otps).mem_iff, ← AList.mem_lookup_iff]
  rfl

/-- A number that is configured has a password. -/
theorem exists_lookup (h : phone ∈ otps) : ∃ otp, otps.lookup phone = some otp :=
  Option.isSome_iff_exists.mp (AList.lookup_isSome.mpr h)

/-- A number that is found is a key of the map. -/
theorem mem_of_lookup (h : otps.lookup phone = some otp) : phone ∈ otps :=
  AList.lookup_isSome.mp (by rw [h]; rfl)

/-- The keys of the result are the numbers, as they are written. -/
theorem mem_formatTestOtps : phone ∈ formatTestOtps order otps ↔
    ∃ phone' ∈ otps, formatPhone phone' = phone := by
  rw [formatTestOtps, Dict.mem_insertAll, List.map_map, List.mem_map]
  constructor
  · rintro (⟨⟨phone', otp⟩, hmem, rfl⟩ | hempty)
    · exact ⟨phone', mem_of_lookup (mem_visit.mp hmem), rfl⟩
    · exact absurd hempty (AList.notMem_empty phone)
  · rintro ⟨phone', hmem, rfl⟩
    obtain ⟨otp, hotp⟩ := exists_lookup hmem
    exact .inl ⟨⟨phone', otp⟩, mem_visit.mpr hotp, rfl⟩

/-- Numbers that are written alike have the same password. Otherwise the order of the loop
decides. -/
def Agree (otps : Dict Bytes Bytes) : Prop :=
  ∀ phone ∈ otps, ∀ phone' ∈ otps, formatPhone phone = formatPhone phone' →
    otps.lookup phone = otps.lookup phone'

/-- If the passwords agree, each number has its own. -/
theorem lookup_formatTestOtps (hagree : Agree otps) :
    (formatTestOtps order otps).lookup phone = some otp ↔
      ∃ phone', otps.lookup phone' = some otp ∧ formatPhone phone' = phone := by
  rw [formatTestOtps, Dict.lookup_insertAll_iff, List.mem_map]
  · constructor
    · rintro ⟨⟨phone', otp'⟩, hmem, heq⟩
      obtain ⟨rfl, rfl⟩ := Sigma.mk.injEq .. ▸ heq
      exact ⟨phone', mem_visit.mp hmem, rfl⟩
    · rintro ⟨phone', hotp, rfl⟩
      exact ⟨⟨phone', otp⟩, mem_visit.mpr hotp, rfl⟩
  · rintro _ he _ he' hkey
    obtain ⟨⟨phone₁, otp₁⟩, h₁, rfl⟩ := List.mem_map.mp he
    obtain ⟨⟨phone₂, otp₂⟩, h₂, rfl⟩ := List.mem_map.mp he'
    have hotp₁ := mem_visit.mp h₁
    have hotp₂ := mem_visit.mp h₂
    have hsame := hagree _ (mem_of_lookup hotp₁) _ (mem_of_lookup hotp₂) hkey
    exact Option.some.inj (hotp₁.symm.trans (hsame.trans hotp₂))

/-- The number that is visited last keeps its password. -/
theorem lookup_formatTestOtps_last (h : otps.lookup phone = some otp) :
    (formatTestOtps (order.last ⟨phone, otp⟩) otps).lookup (formatPhone phone) = some otp := by
  have hlast : (order.last ⟨phone, otp⟩).visit otps =
      (order.visit otps).erase ⟨phone, otp⟩ ++ [⟨phone, otp⟩] := if_pos (mem_visit.mpr h)
  rw [formatTestOtps, hlast, List.map_append]
  exact Dict.lookup_insertAll_concat ∅ _ (⟨formatPhone phone, otp⟩ : Entry Bytes Bytes)

end

/-! ### `ApplyDefaults` -/

section

variable {T : Types} {lib : Libraries T} {ranges : Ranges T} {c c' : GlobalConfiguration T}

/-- The test numbers after `ApplyDefaults`. -/
theorem testOTP_of_applyDefaults (h : applyDefaults lib ranges c = .ok c') :
    c'.sms.testOTP = c.sms.testOTP.map (formatTestOtps ranges.testOTP) := by
  obtain ⟨jwt, -, h⟩ := exists_of_bind_eq_ok h
  obtain ⟨_, -, h⟩ := exists_of_bind_eq_ok h
  obtain ⟨allowListMap, -, h⟩ := exists_of_bind_eq_ok h
  obtain rfl := Except.ok.inj h
  rfl

/-- A computation succeeds after a value that is passed on. -/
theorem exists_ok_of_bind {ε α β : Type} {result : Except ε α} {f : α → Except ε β} {a : α}
    (hresult : result = .ok a) (h : ∃ b, f a = .ok b) : ∃ b, (result >>= f) = .ok b := by
  rw [hresult]
  exact h

/-- Whether `ApplyDefaults` succeeds does not depend on the order of this loop. -/
theorem applyDefaults_order (h : applyDefaults lib ranges c = .ok c')
    (order : Dict.Iteration Bytes Bytes) :
    ∃ c'', applyDefaults lib { ranges with testOTP := order } c = .ok c'' := by
  obtain ⟨jwt, hjwt, h⟩ := exists_of_bind_eq_ok h
  obtain ⟨_, hmailer, h⟩ := exists_of_bind_eq_ok h
  obtain ⟨allowListMap, hallow, -⟩ := exists_of_bind_eq_ok h
  have hjwt' : report (jwtDefaults lib { ranges with testOTP := order } c.jwt) = .ok jwt := hjwt
  exact exists_ok_of_bind hjwt' (exists_ok_of_bind hmailer (exists_ok_of_bind hallow ⟨_, rfl⟩))

/-- The test phone numbers come into one canonical form. -/
structure TestOTPCanonical (lib : Libraries T) (c : GlobalConfiguration T) : Prop where
  /-- No key starts with a `+` or contains a space. -/
  keys : ∀ ranges c', applyDefaults lib ranges c = .ok c' →
    ∀ otps, c'.sms.testOTP = some otps → ∀ phone ∈ otps, phone.head? ≠ some 0x2b ∧ 0x20 ∉ phone
  /-- The result does not depend on the order of the loop. -/
  order : ∀ ranges ranges' c' c'', applyDefaults lib ranges c = .ok c' →
    applyDefaults lib ranges' c = .ok c'' → SameOTPs c'.sms.testOTP c''.sms.testOTP
  /-- A second run leaves the result as it is. -/
  again : ∀ ranges ranges' c' c'', applyDefaults lib ranges c = .ok c' →
    applyDefaults lib ranges' c' = .ok c'' → SameOTPs c''.sms.testOTP c'.sms.testOTP
  /-- Every number is found by its digits. -/
  found : ∀ ranges c', applyDefaults lib ranges c = .ok c' →
    ∀ otps, c.sms.testOTP = some otps → ∀ phone ∈ otps,
      ∀ (validUntil : Option Int) (now : Int), validUntil.all (now < ·) = true →
        (getTestOTP c'.sms.testOTP validUntil (bareDigits phone) now).isSome

/-- No number has a hidden `+`, the passwords agree, and the digits of every number are those of a
number that has no other signs. -/
structure TestOTPWellFormed (otps : Dict Bytes Bytes) : Prop where
  plus : ∀ phone ∈ otps, ¬ HiddenPlus phone
  agree : Agree otps
  digits : ∀ phone ∈ otps, ∃ phone' ∈ otps, IsPhone phone' ∧ bareDigits phone' = bareDigits phone

/-- The numbers of a canonical result are not changed by another run. -/
theorem sameOTPs_formatTestOtps {otps : Dict Bytes Bytes} {order : Dict.Iteration Bytes Bytes}
    (h : ∀ phone ∈ otps, phone.head? ≠ some 0x2b ∧ 0x20 ∉ phone) :
    SameOTPs (some (formatTestOtps order otps)) (some otps) := by
  have hformat : ∀ phone ∈ otps, formatPhone phone = phone := fun phone hphone =>
    formatPhone_of_canonical (h phone hphone).1 (h phone hphone).2
  have hagree : Agree otps := by
    intro phone hphone phone' hphone' hsame
    rw [hformat phone hphone, hformat phone' hphone'] at hsame
    rw [hsame]
  refine ⟨rfl, fun phone => Option.ext fun otp => ?_⟩
  show (formatTestOtps order otps).lookup phone = some otp ↔ otps.lookup phone = some otp
  rw [lookup_formatTestOtps hagree]
  constructor
  · rintro ⟨phone', hotp, rfl⟩
    rwa [hformat phone' (mem_of_lookup hotp)]
  · intro hotp
    exact ⟨phone, hotp, hformat phone (mem_of_lookup hotp)⟩

/-- On well-formed numbers all goes well. -/
theorem TestOTPWellFormed.canonical
    (h : ∀ otps, c.sms.testOTP = some otps → TestOTPWellFormed otps) : TestOTPCanonical lib c := by
  have hkeys : ∀ ranges c', applyDefaults lib ranges c = .ok c' →
      ∀ otps, c'.sms.testOTP = some otps →
        ∀ phone ∈ otps, phone.head? ≠ some 0x2b ∧ 0x20 ∉ phone := by
    intro ranges c' hc otps hotps phone hphone
    rw [testOTP_of_applyDefaults hc] at hotps
    obtain ⟨otps', hotps', rfl⟩ := Option.map_eq_some_iff.mp hotps
    obtain ⟨phone', hphone', rfl⟩ := mem_formatTestOtps.mp hphone
    exact ⟨fun hhead => (h otps' hotps').plus phone' hphone' (head?_formatPhone.mp hhead),
      space_notMem_formatPhone phone'⟩
  refine ⟨hkeys, ?_, ?_, ?_⟩
  · intro ranges ranges' c' c'' hc' hc''
    rw [testOTP_of_applyDefaults hc', testOTP_of_applyDefaults hc'']
    cases hotps : c.sms.testOTP with
    | none => exact ⟨rfl, fun _ => rfl⟩
    | some otps =>
      refine ⟨rfl, fun phone => Option.ext fun otp => ?_⟩
      have hagree := (h otps hotps).agree
      exact (lookup_formatTestOtps hagree).trans (lookup_formatTestOtps hagree).symm
  · intro ranges ranges' c' c'' hc' hc''
    -- The second run starts from canonical keys, which it does not change.
    have hcanonical := hkeys ranges c' hc'
    rw [testOTP_of_applyDefaults hc'']
    cases hotps : c'.sms.testOTP with
    | none => exact ⟨rfl, fun _ => rfl⟩
    | some otps => exact sameOTPs_formatTestOtps (hcanonical otps hotps)
  · intro ranges c' hc otps hotps phone hphone validUntil now hnow
    obtain ⟨phone', hphone', hnumber, hdigits⟩ := (h otps hotps).digits phone hphone
    obtain ⟨otp, hotp⟩ := exists_lookup hphone'
    have hfound : (formatTestOtps ranges.testOTP otps).lookup (bareDigits phone) = some otp := by
      rw [lookup_formatTestOtps (h otps hotps).agree, ← hdigits]
      exact ⟨phone', hotp, formatPhone_of_isPhone hnumber ((h otps hotps).plus phone' hphone')⟩
    rw [testOTP_of_applyDefaults hc, hotps]
    simp [getTestOTP, hnow, hfound]

/-- The test numbers come into one canonical form exactly when no number has a `+` behind a space
or behind another `+`, numbers that are written alike have the same password, and every number has
the digits of one that is written with digits and spaces, and a `+` in front or none. -/
theorem testOTP_canonical_iff (h : applyDefaults lib ranges c = .ok c') :
    TestOTPCanonical lib c ↔ ∀ otps, c.sms.testOTP = some otps → TestOTPWellFormed otps := by
  refine ⟨fun hcanonical otps hotps => ⟨?_, ?_, ?_⟩, TestOTPWellFormed.canonical⟩
  · intro phone hphone hhidden
    have hresult := testOTP_of_applyDefaults h
    rw [hotps, Option.map_some] at hresult
    exact (hcanonical.keys ranges c' h _ hresult _ (mem_formatTestOtps.mpr ⟨phone, hphone, rfl⟩)).1
      (head?_formatPhone.mpr hhidden)
  · intro phone hphone phone' hphone' hsame
    obtain ⟨otp, hotp⟩ := exists_lookup hphone
    obtain ⟨otp', hotp'⟩ := exists_lookup hphone'
    -- One run visits the first number last, and the other run the second.
    obtain ⟨c₁, h₁⟩ := applyDefaults_order h (ranges.testOTP.last ⟨phone, otp⟩)
    obtain ⟨c₂, h₂⟩ := applyDefaults_order h (ranges.testOTP.last ⟨phone', otp'⟩)
    have hlookup := (hcanonical.order _ _ _ _ h₁ h₂).2 (formatPhone phone)
    rw [testOTP_of_applyDefaults h₁, testOTP_of_applyDefaults h₂, hotps] at hlookup
    have hlast := @lookup_formatTestOtps_last ranges.testOTP _ _ _ hotp
    have hlast' := @lookup_formatTestOtps_last ranges.testOTP _ _ _ hotp'
    have heq : some otp = some otp' := by
      rw [← hlast, ← hlast', ← hsame]
      exact hlookup
    rw [hotp, hotp', heq]
  · intro phone hphone
    have hfound := hcanonical.found ranges c' h otps hotps phone hphone none 0 rfl
    rw [testOTP_of_applyDefaults h, hotps] at hfound
    have hmem : bareDigits phone ∈ formatTestOtps ranges.testOTP otps :=
      AList.lookup_isSome.mp hfound
    obtain ⟨phone', hphone', hformat⟩ := mem_formatTestOtps.mp hmem
    obtain ⟨hnumber, hdigits⟩ := isPhone_of_formatPhone (hformat ▸ isDigit_of_mem_bareDigits)
    exact ⟨phone', hphone', hnumber, hdigits.trans hformat⟩

end

/-- A configuration with these test numbers. -/
def exampleTestOTP (otps : Dict Bytes Bytes) : GlobalConfiguration exampleTypes :=
  { exampleConfiguration (exampleEnv "http://localhost") with
    sms := ⟨0, 0, 0, [], [], some otps, none⟩ }

/-- `ApplyDefaults` succeeds on it. -/
theorem exists_applyDefaults {c : GlobalConfiguration exampleTypes}
    (h : (applyDefaults exampleLibraries .default c).isOk = true) :
    ∃ c', applyDefaults exampleLibraries .default c = .ok c' := by
  cases hc : applyDefaults exampleLibraries .default c with
  | error failure =>
    rw [hc] at h
    cases h
  | ok c' => exact ⟨c', rfl⟩

/-- Two spellings of one number, with one password. -/
theorem testOTP_canonical_spellings :
    TestOTPCanonical exampleLibraries (exampleTestOTP
      (.insert (ascii "+1 333 4444") (ascii "123456")
        (.insert (ascii "13334444") (ascii "123456") ∅))) := by
  obtain ⟨c', hc⟩ := exists_applyDefaults (c := exampleTestOTP
    (.insert (ascii "+1 333 4444") (ascii "123456")
      (.insert (ascii "13334444") (ascii "123456") ∅))) (by decide +kernel)
  refine (testOTP_canonical_iff hc).mpr fun otps hotps => ?_
  obtain rfl := Option.some.inj hotps
  have hphones : ∀ phone ∈ AList.insert (ascii "+1 333 4444") (ascii "123456")
      (AList.insert (ascii "13334444") (ascii "123456") (∅ : Dict Bytes Bytes)),
      phone = ascii "+1 333 4444" ∨ phone = ascii "13334444" := by
    intro phone hphone
    rwa [AList.mem_insert, AList.mem_insert, or_iff_left (AList.notMem_empty phone)] at hphone
  constructor
  · intro phone hphone hhidden
    rw [← head?_formatPhone] at hhidden
    rcases hphones phone hphone with rfl | rfl <;> revert hhidden <;> decide +kernel
  · intro phone hphone phone' hphone' _
    rcases hphones phone hphone with rfl | rfl <;>
      rcases hphones phone' hphone' with rfl | rfl <;> decide +kernel
  · intro phone hphone
    refine ⟨phone, hphone, ?_, rfl⟩
    rcases hphones phone hphone with rfl | rfl
    · exact ⟨[], ascii "1 333 4444", nofun, by decide +kernel, .inr rfl⟩
    · exact ⟨[], ascii "13334444", nofun, by decide +kernel, .inl rfl⟩

/-- A space hides the `+` of the second number, as in `13334444:123456, +13335555:654321`. -/
theorem not_testOTP_canonical :
    ¬ ∀ (T : Types) (lib : Libraries T) (c : GlobalConfiguration T), TestOTPCanonical lib c := by
  intro hall
  obtain ⟨c', hc⟩ := exists_applyDefaults (c := exampleTestOTP
    (.insert (ascii " +13335555") (ascii "654321")
      (.insert (ascii "13334444") (ascii "123456") ∅))) (by decide +kernel)
  have hcanonical := hall _ exampleLibraries (exampleTestOTP
    (.insert (ascii " +13335555") (ascii "654321")
      (.insert (ascii "13334444") (ascii "123456") ∅)))
  have hresult := testOTP_of_applyDefaults hc
  exact (hcanonical.keys _ c' hc _ hresult (ascii "+13335555")
    (mem_formatTestOtps.mpr ⟨ascii " +13335555", by decide +kernel, by decide +kernel⟩)).1
    (by decide +kernel)

end TSubSpec.Auth
