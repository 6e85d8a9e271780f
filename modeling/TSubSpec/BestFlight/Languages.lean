import TSubSpec.Lib.Machine

/-!
# `TSubSpec.BestFlight.Languages`: the instances of the language service

`LanguagesService.shared` makes a new instance whenever it is read, and so does `ServiceBuilder`.
An instance reads the stored language when it is made, keeps it, and compares a new language with
the one that it keeps. The stored identifier and the notification are shared.

`step` makes and releases instances and text managers, and sets the language on one of the
instances. A text manager asks its own instance, whenever the notification comes. The language of
the last call and the identifier that should be stored since then are carried along to state what
the instances agree on. They take no part in a step.

`alwaysAgree_iff` says when all instances agree throughout a run: a call that changes the language
is made on the only instance there is, any other call is made when an identifier is stored, and an
instance is made when the title of the language is the one of the bundle.
-/

set_option autoImplicit false

namespace TSubSpec.BestFlight

open TSubSpec.Lib

/-! ### Services -/

/-- `LanguageModel`. -/
structure LanguageModel where
  identifier : String
  title : String
  deriving DecidableEq, Repr

/-- `Bundle.main`: the first of the preferred localizations, and the localized strings. -/
structure Bundle where
  preferredLocalization : String
  localizedString : String → String

/-- A `LanguagesService`, and the texts that its text managers show, by their languages. Each
instance has its own copy of the language. -/
structure LanguagesService where
  currentLanguage : LanguageModel
  texts : List LanguageModel
  deriving DecidableEq, Repr

/-- The identifier in `UserDefaults`, and the instances that were made. A released one is
`none`. -/
structure Services where
  stored : Option String
  services : List (Option LanguagesService)
  /-- The language of the last `setLanguage`, or the one that was loaded before. -/
  last : LanguageModel
  /-- The identifier of the last `setLanguage`, or the one that was stored before. -/
  expected : Option String
  deriving DecidableEq, Repr

section

variable (bundle : Bundle)

/-- `languageModel(with:)`. -/
def languageModel (id : String) : LanguageModel :=
  ⟨id, bundle.localizedString ("language_" ++ id)⟩

/-- The identifier that `loadCurrentLanguage` reads. -/
def currentLanguageId (stored : Option String) : String :=
  stored.getD bundle.preferredLocalization

/-- `loadCurrentLanguage`: the language that is stored, or the first one that is preferred. -/
def loadCurrentLanguage (stored : Option String) : LanguageModel :=
  languageModel bundle (currentLanguageId bundle stored)

/-- The instance is there. -/
def Services.live (s : Services) (i : Nat) : Option LanguagesService := (s.services[i]?).join

/-- The instance is now this one, or released. -/
def Services.set (s : Services) (i : Nat) (service : Option LanguagesService) : Services :=
  { s with services := s.services.set i service }

/-- `languageChanged` of the text managers of an instance. -/
def LanguagesService.languageChanged (service : LanguagesService) : LanguagesService :=
  { service with texts := service.texts.map fun _ => service.currentLanguage }

/-- `signalLanguageWasChanged`: all instances are told, and each shows its texts in its own
language. -/
def Services.signalLanguageWasChanged (s : Services) : Services :=
  { s with services := s.services.map (Option.map LanguagesService.languageChanged) }

/-- `setLanguage` on the instance `i`: nothing happens if it has the language already. Otherwise the
language is stored, and all instances are told. -/
def Services.setLanguage (s : Services) (i : Nat) (service : LanguagesService)
    (model : LanguageModel) : Services :=
  let s := { s with last := model, expected := some model.identifier }
  if model = service.currentLanguage then s
  else
    ({ s.set i (some { service with currentLanguage := model }) with
      stored := some model.identifier }).signalLanguageWasChanged

/-- What happens to the services: instances are made and released, and the language is changed on
one of them. -/
inductive LanguageAction where
  /-- `LanguagesService.shared` or `ServiceBuilder.service`. -/
  | create
  /-- Nobody holds the instance any more. -/
  | release (i : Nat)
  /-- A text manager with an observer is made for the instance. -/
  | manage (i : Nat)
  /-- `setLanguage(from:)`. -/
  | setLanguage (i : Nat) (model : LanguageModel)
  deriving Repr

/-- One step. -/
def step (s : Services) : LanguageAction → Option Services
  | .create =>
    some { s with services := s.services ++ [some ⟨loadCurrentLanguage bundle s.stored, []⟩] }
  | .release i => (s.live i).map fun _ => s.set i none
  | .manage i => (s.live i).map fun service =>
    s.set i (some { service with texts := service.texts ++ [service.currentLanguage] })
  | .setLanguage i model => (s.live i).map fun service => s.setLanguage i service model

/-- The start of the application. -/
def Services.start (stored : Option String) : Services :=
  ⟨stored, [], loadCurrentLanguage bundle stored, stored⟩

/-! ### Agreement -/

/-- Every instance and the texts have the last language. `UserDefaults` holds its identifier after a
call, and before any call what was stored at the start: then the language is the one of that
identifier, or the preferred one of the bundle if there is none. -/
structure Agree (s : Services) : Prop where
  services : ∀ i service, s.live i = some service → service.currentLanguage = s.last
  stored : s.stored = s.expected
  loaded : currentLanguageId bundle s.stored = s.last.identifier
  texts : ∀ i service, s.live i = some service → ∀ text ∈ service.texts, text = s.last

/-- A call that is ignored has the language that is stored. -/
def NotLost (s : Services) : LanguageAction → Prop
  | .setLanguage i model => ∀ service, s.live i = some service → model = service.currentLanguage →
      s.stored = some model.identifier
  | _ => True

/-- An instance is made when the title of the language is that of the bundle. A call that changes
the language is made on the only instance, and any other call when an identifier is stored. -/
def Alone (s : Services) : LanguageAction → Prop
  | .create => s.last = languageModel bundle s.last.identifier
  | .setLanguage i model =>
    model = s.last ∧ s.stored ≠ none ∨ model ≠ s.last ∧ ∀ j, (s.live j).isSome → j = i
  | _ => True

end

/-! ### The instances after a step -/

section

variable {bundle : Bundle} {s t : Services} {i j : Nat} {service : LanguagesService}
  {model : LanguageModel}

/-- An instance that is alive is one that was made. -/
theorem lt_of_live (h : s.live i = some service) : i < s.services.length := by
  have hget : s.services[i]? = some (some service) := Option.join_eq_some_iff.mp h
  exact (List.getElem?_eq_some_iff.mp hget).1

/-- Changing an instance changes it. -/
theorem live_set_self (h : s.live i = some service) (new : Option LanguagesService) :
    (s.set i new).live i = new := by
  simp [Services.live, Services.set, lt_of_live h]

/-- Changing an instance leaves the others. -/
theorem live_set_of_ne (h : j ≠ i) (new : Option LanguagesService) :
    (s.set i new).live j = s.live j := by
  simp [Services.live, Services.set, List.getElem?_set_ne h.symm]

/-- The signal of a changed language reaches every instance that is alive. -/
theorem live_signalLanguageWasChanged :
    s.signalLanguageWasChanged.live j = (s.live j).map LanguagesService.languageChanged := by
  simp only [Services.live, Services.signalLanguageWasChanged, List.getElem?_map]
  cases s.services[j]? <;> rfl

/-- An instance that is there after another one is made is the new one, or was there before. -/
theorem live_append (new : LanguagesService) :
    ({ s with services := s.services ++ [some new] } : Services).live j =
      if j = s.services.length then some new else s.live j := by
  unfold Services.live
  rcases Nat.lt_trichotomy j s.services.length with hlt | rfl | hgt
  · rw [if_neg (Nat.ne_of_lt hlt), List.getElem?_append_left hlt]
  · simp
  · rw [if_neg (Nat.ne_of_gt hgt), List.getElem?_eq_none (by simp; omega),
      List.getElem?_eq_none (by omega)]

/-- After a call that changes the language, the instance that it was made on has the new one, and
the others have what they had. -/
theorem live_setLanguage (h : s.live i = some service) (hmodel : model ≠ service.currentLanguage) :
    (s.setLanguage i service model).live j =
      if j = i then some { currentLanguage := model, texts := service.texts.map fun _ => model }
      else (s.live j).map LanguagesService.languageChanged := by
  rw [Services.setLanguage, if_neg hmodel, live_signalLanguageWasChanged]
  by_cases hj : j = i
  · subst hj
    have hset := live_set_self h (some { service with currentLanguage := model })
    rw [if_pos rfl]
    exact congrArg (Option.map LanguagesService.languageChanged) hset
  · have hset := live_set_of_ne (s := s) hj (some { service with currentLanguage := model })
    rw [if_neg hj]
    exact congrArg (Option.map LanguagesService.languageChanged) hset

/-! ### One step -/

/-- A new instance agrees exactly when the title of the language is that of the bundle. -/
theorem agree_create_iff (h : Agree bundle s) (ht : step bundle s .create = some t) :
    Alone bundle s .create ↔ Agree bundle t := by
  obtain rfl := Option.some.inj ht
  have hload : loadCurrentLanguage bundle s.stored = languageModel bundle s.last.identifier := by
    rw [loadCurrentLanguage, h.loaded]
  constructor
  · intro halone
    have hnew : loadCurrentLanguage bundle s.stored = s.last := hload.trans halone.symm
    refine ⟨?_, h.stored, h.loaded, ?_⟩
    · intro j service hj
      rw [live_append] at hj
      split at hj
      · obtain rfl := Option.some.inj hj
        exact hnew
      · exact h.services j service hj
    · intro j service hj
      rw [live_append] at hj
      split at hj
      · obtain rfl := Option.some.inj hj
        simp
      · exact h.texts j service hj
  · -- The new instance is the last of the list, and it shows what was loaded.
    intro hagree
    have hnew := hagree.services s.services.length _ ((live_append _).trans (if_pos rfl))
    exact (hload.symm.trans hnew).symm

/-- Releasing an instance keeps the others in agreement. -/
theorem agree_release (h : Agree bundle s) (ht : step bundle s (.release i) = some t) :
    Agree bundle t := by
  obtain ⟨service, hservice, rfl⟩ := Option.map_eq_some_iff.mp ht
  have hold : ∀ j service, (s.set i none).live j = some service → s.live j = some service := by
    intro j service' hj
    by_cases hji : j = i
    · rw [hji, live_set_self hservice] at hj
      cases hj
    · rwa [live_set_of_ne hji] at hj
  exact ⟨fun j service hj => h.services j service (hold j service hj), h.stored, h.loaded,
    fun j service hj => h.texts j service (hold j service hj)⟩

/-- Managing an instance changes no language. -/
theorem agree_manage (h : Agree bundle s) (ht : step bundle s (.manage i) = some t) :
    Agree bundle t := by
  obtain ⟨service, hservice, rfl⟩ := Option.map_eq_some_iff.mp ht
  refine ⟨fun j service' hj => ?_, h.stored, h.loaded, fun j service' hj => ?_⟩
  · by_cases hji : j = i
    · rw [hji, live_set_self hservice] at hj
      obtain rfl := Option.some.inj hj
      exact h.services i service hservice
    · rw [live_set_of_ne hji] at hj
      exact h.services j service' hj
  · by_cases hji : j = i
    · rw [hji, live_set_self hservice] at hj
      obtain rfl := Option.some.inj hj
      exact List.forall_mem_append.mpr ⟨h.texts i service hservice,
        List.forall_mem_singleton.mpr (h.services i service hservice)⟩
    · rw [live_set_of_ne hji] at hj
      exact h.texts j service' hj

/-- While the instances agree, the stored identifier is that of the last language, if there is
one. -/
theorem Agree.stored_eq (h : Agree bundle s) (hstored : s.stored ≠ none) :
    s.stored = some s.last.identifier := by
  obtain ⟨id, hid⟩ := Option.ne_none_iff_exists'.mp hstored
  have hloaded := h.loaded
  rw [hid] at hloaded ⊢
  exact congrArg some hloaded

/-- After a call the instances agree exactly when the call has the last language and an identifier
is stored, or is made on the only instance. -/
theorem agree_setLanguage_iff (h : Agree bundle s)
    (ht : step bundle s (.setLanguage i model) = some t) :
    Alone bundle s (.setLanguage i model) ↔ Agree bundle t := by
  obtain ⟨service, hservice, rfl⟩ := Option.map_eq_some_iff.mp ht
  have hcurrent := h.services i service hservice
  by_cases hmodel : model = service.currentLanguage
  · -- The call is ignored, so the identifier has to be there already.
    have hlast := hmodel.trans hcurrent
    have hsame : s.setLanguage i service model = { s with expected := some model.identifier } := by
      rw [Services.setLanguage, if_pos hmodel, hlast]
    rw [hsame]
    constructor
    · rintro (⟨-, hstored⟩ | ⟨hne, -⟩)
      · refine ⟨h.services, ?_, h.loaded, h.texts⟩
        rw [hlast]
        exact h.stored_eq hstored
      · exact absurd hlast hne
    · intro hagree
      refine .inl ⟨hlast, ?_⟩
      rw [show s.stored = some model.identifier from hagree.stored]
      exact Option.some_ne_none _
  · have hlast : model ≠ s.last := fun heq => hmodel (heq.trans hcurrent.symm)
    have hset : ∀ j, (s.setLanguage i service model).live j = _ := fun j =>
      live_setLanguage hservice hmodel
    have hfields : (s.setLanguage i service model).last = model ∧
        (s.setLanguage i service model).stored = some model.identifier ∧
        (s.setLanguage i service model).expected = some model.identifier := by
      rw [Services.setLanguage, if_neg hmodel]
      exact ⟨rfl, rfl, rfl⟩
    constructor
    · rintro (⟨heq, -⟩ | ⟨-, honly⟩)
      · exact absurd heq hlast
      · have hone : ∀ j service', (s.setLanguage i service model).live j = some service' →
            service' = { currentLanguage := model, texts := service.texts.map fun _ => model } := by
          intro j service' hj
          rw [hset] at hj
          split at hj
          · exact (Option.some.inj hj).symm
          · next hji =>
            obtain ⟨_, hlive, -⟩ := Option.map_eq_some_iff.mp hj
            exact absurd (honly j (by rw [hlive]; rfl)) hji
        refine ⟨fun j service' hj => ?_, hfields.2.1.trans hfields.2.2.symm, ?_,
          fun j service' hj => ?_⟩
        · rw [hone j service' hj, hfields.1]
        · rw [hfields.1, hfields.2.1]
          rfl
        · rw [hone j service' hj, hfields.1]
          simp
    · intro hagree
      refine .inr ⟨hlast, fun j hj => ?_⟩
      by_contra hji
      -- Another instance still has the language before.
      obtain ⟨other, hother⟩ := Option.isSome_iff_exists.mp hj
      have hstale := hagree.services j other.languageChanged (by
        rw [hset, if_neg hji, hother]
        rfl)
      rw [hfields.1] at hstale
      exact hlast (hstale.symm.trans (h.services j other hother))

/-- A step keeps the instances in agreement exactly when it satisfies the condition. -/
theorem alone_iff_agree (h : Agree bundle s) {a : LanguageAction} (ht : step bundle s a = some t) :
    Alone bundle s a ↔ Agree bundle t := by
  cases a with
  | create => exact agree_create_iff h ht
  | release i => exact iff_of_true trivial (agree_release h ht)
  | manage i => exact iff_of_true trivial (agree_manage h ht)
  | setLanguage i model => exact agree_setLanguage_iff h ht

/-- While the instances agree, no call that satisfies the condition is lost. -/
theorem Agree.notLost (h : Agree bundle s) (a : LanguageAction) (ha : Alone bundle s a) :
    NotLost s a := by
  cases a with
  | setLanguage i model =>
    intro service hservice hmodel
    have hlast := hmodel.trans (h.services i service hservice)
    obtain ⟨-, hstored⟩ | ⟨hne, -⟩ := ha
    · rw [h.stored_eq hstored, hlast]
    · exact absurd hlast hne
  | _ => trivial

/-- At the start there are no instances. -/
theorem agree_start (bundle : Bundle) (stored : Option String) :
    Agree bundle (Services.start bundle stored) :=
  ⟨nofun, rfl, rfl, nofun⟩

/-- In every state of the run all services agree, and no call of it is lost. A call is lost if it is
ignored and another language is stored. -/
def AlwaysAgree (bundle : Bundle) (stored : Option String) (actions : List LanguageAction) : Prop :=
  Always (step bundle) (Agree bundle) (Services.start bundle stored) actions ∧
    Along (step bundle) NotLost (Services.start bundle stored) actions

/-- For every run: all services agree throughout exactly when every step satisfies the condition,
which is on the instances and the identifier stored before the step. Each instance has its own copy
of the identifier, and tells no other when it changes. -/
theorem alwaysAgree_iff {stored : Option String} {actions : List LanguageAction}
    (hrun : runActions (step bundle) (Services.start bundle stored) actions = some t) :
    AlwaysAgree bundle stored actions ↔
      Along (step bundle) (Alone bundle) (Services.start bundle stored) actions := by
  have hiff : Always (step bundle) (Agree bundle) (Services.start bundle stored) actions ↔
      Along (step bundle) (Alone bundle) (Services.start bundle stored) actions :=
    always_iff_along (fun _ _ _ h ht => alone_iff_agree h ht) (agree_start bundle stored) hrun
  constructor
  · exact fun h => hiff.mp h.1
  · intro halone
    have hagree := hiff.mpr halone
    exact ⟨hagree, hagree.along (fun _ a hs => hs.notLost a) halone⟩

end

/-- A bundle with texts that are their keys. -/
def exampleBundle : Bundle := ⟨"en", id⟩

/-- A language that the bundle lists. -/
def exampleLanguage : LanguageModel := languageModel exampleBundle "de"

/-- The language is changed while there is one instance, and then a second one is made. -/
theorem alwaysAgree_first_start :
    AlwaysAgree exampleBundle (some "en")
      [.create, .manage 0, .setLanguage 0 exampleLanguage, .create] := by
  refine (alwaysAgree_iff rfl).mpr ⟨rfl, ?_⟩
  rintro _ ⟨⟩
  refine ⟨trivial, ?_⟩
  rintro _ ⟨⟩
  refine ⟨.inr ⟨by decide, ?_⟩, ?_⟩
  · intro j hj
    cases j with
    | zero => rfl
    | succ j => cases hj
  · rintro _ ⟨⟩
    refine ⟨rfl, ?_⟩
    rintro _ ⟨⟩
    trivial

/-- The language is changed on the first of two instances: the second one keeps the old one. -/
theorem not_alwaysAgree_two :
    ¬ ∀ bundle stored actions t, runActions (step bundle) (Services.start bundle stored) actions =
      some t → AlwaysAgree bundle stored actions := by
  intro hall
  obtain ⟨⟨-, hcreate⟩, -⟩ := hall exampleBundle (some "en")
    [.create, .create, .setLanguage 0 exampleLanguage] _ rfl
  have hagree := ((((hcreate _ rfl).2 _ rfl).2 _ rfl) : Agree _ _)
  have hstale := hagree.services 1 _ rfl
  revert hstale
  decide

end TSubSpec.BestFlight
