import TSubSpec.BestFlight.MainFlow
import TSubSpec.FirstStart.Choices
import TSubSpec.Lib.Machine

/-!
# `TSubSpec.BestFlight.UserSettings`: no change of the user settings is lost

`Copies` says that four copies of the user settings and the stored one are the same, and
`LastChosen` that they consist of the country and the currency that were chosen last. Before the
main flow is started for the first time nothing is stored, and from then on both hold
(`Invariant.step`): a selector changes the copy that its coordinator has, so it writes no older
copy back. A relaunch reads what the last change has stored.

The copy of `MainCoordinator` itself is not among them. It is read by nobody, and a change does
not reach it.
-/

set_option autoImplicit false

namespace TSubSpec.BestFlight

open TSubSpec.Lib
open TSubSpec.FirstStart (MarketCountryModel CurrencyModel Flow FinishCall)

/-! ### What was chosen -/

section

variable {Text : Type}

/-- The country of a choice. -/
def Choice.country? : Choice Text → Option (MarketCountryModel Text)
  | .both userSettings => some userSettings.country
  | .country model => some model
  | .currency _ => none

/-- The currency of a choice. -/
def Choice.currency? : Choice Text → Option (CurrencyModel Text)
  | .both userSettings => some userSettings.currency
  | .country _ => none
  | .currency model => some model

/-- The settings consist of the country and the currency that were chosen last. The choices stand
with the last one in front. -/
structure LastChosen (choices : List (Choice Text)) (userSettings : UserSettingsModel Text) :
    Prop where
  country : choices.findSome? Choice.country? = some userSettings.country
  currency : choices.findSome? Choice.currency? = some userSettings.currency

variable {choices : List (Choice Text)} {userSettings : UserSettingsModel Text}

/-- Settings that were chosen as a whole are the last choice of both. -/
theorem LastChosen.both (choices : List (Choice Text)) (userSettings : UserSettingsModel Text) :
    LastChosen (.both userSettings :: choices) userSettings := ⟨rfl, rfl⟩

/-- A newer choice of the country replaces the country only. -/
theorem LastChosen.cons_country (h : LastChosen choices userSettings)
    (model : MarketCountryModel Text) :
    LastChosen (.country model :: choices) { userSettings with country := model } :=
  ⟨rfl, h.currency⟩

/-- A newer choice of the currency replaces the currency only. -/
theorem LastChosen.cons_currency (h : LastChosen choices userSettings)
    (model : CurrencyModel Text) :
    LastChosen (.currency model :: choices) { userSettings with currency := model } :=
  ⟨h.country, rfl⟩

end

/-! ### The copies -/

section

variable {Text Data Date : Type} (json : JSONCoder (UserSettingsModel Text) Data)

/-- The copies of the coordinators and of the presenter, and what is stored, are these settings.
These are all places that hold them. -/
structure Copies (s : Application Text Data Date) (userSettings : UserSettingsModel Text) :
    Prop where
  app : s.userSettings = some userSettings
  preferences : s.mainFlow.preferencesCoordinator.userSettings = some userSettings
  flightsSearch : s.mainFlow.flightsSearchCoordinator.userSettings = some userSettings
  mainPreferences : s.mainFlow.preferencesCoordinator.mainPreferencesModuleInput.map
    MainPreferencesPresenter.userSettings = some userSettings
  stored : getApplicationUserSettings json s.settings = some userSettings

/-- The main flow was not started yet, and nothing is stored. The first start has to be finished
before. -/
structure Waiting (s : Application Text Data Date) : Prop where
  main : s.mainFlow.userSettings = none
  preferences : s.mainFlow.preferencesCoordinator.userSettings = none
  stored : getApplicationUserSettings json s.settings = none

/-- What holds in every state that is reached. -/
def Invariant (s : Application Text Data Date) : Prop :=
  Waiting json s ∨ ∃ userSettings, Copies json s userSettings ∧ LastChosen s.choices userSettings

variable {json} {s t : Application Text Data Date} {userSettings : UserSettingsModel Text}

/-- Settings are read as they were stored. -/
theorem getApplicationUserSettings_set (settings : Settings Data Date)
    (userSettings : UserSettingsModel Text) :
    getApplicationUserSettings json (setApplicationUserSettings json settings userSettings) =
      some userSettings := by
  obtain ⟨data, hencode, hdecode⟩ := json.round_trip userSettings
  have hset : setApplicationUserSettings json settings userSettings =
      setValue settings userSettingsKey (.data data) := by
    rw [setApplicationUserSettings, hencode]
  rw [hset, getApplicationUserSettings, setValue_self]
  exact hdecode

/-- The settings of the user are under a key of their own. -/
theorem OtherKey.text_ne (key : OtherKey) : userSettingsKey ≠ key.text := by
  cases key with
  | searchForm key => cases key <;> decide +kernel
  | language => decide +kernel

/-- What others store does not change the user settings. -/
theorem getApplicationUserSettings_setValue (settings : Settings Data Date) (key : OtherKey)
    (value : Value Data Date) :
    getApplicationUserSettings json (setValue settings key.text value) =
      getApplicationUserSettings json settings := by
  rw [getApplicationUserSettings, setValue_of_ne key.text_ne, getApplicationUserSettings]

/-! ### Steps -/

/-- A launch starts the main flow with what is stored. -/
theorem invariant_launch (settings : Settings Data Date) {choices : List (Choice Text)}
    (h : ∀ userSettings, getApplicationUserSettings json settings = some userSettings →
      LastChosen choices userSettings) :
    Invariant json (Application.launch json settings choices) := by
  cases hstored : getApplicationUserSettings json settings with
  | none =>
    left
    simp only [Application.launch, Application.setupLaunchMode, hstored]
    exact ⟨rfl, rfl, hstored⟩
  | some userSettings =>
    right
    simp only [Application.launch, Application.setupLaunchMode, hstored]
    exact ⟨userSettings, ⟨rfl, rfl, rfl, rfl, hstored⟩, h userSettings hstored⟩

/-- When the application starts, the settings that are stored count as chosen as a whole. -/
theorem invariant_start (settings : Settings Data Date) :
    Invariant json (Application.start json settings) := by
  refine invariant_launch settings fun userSettings hstored => ?_
  rw [hstored]
  exact .both [] userSettings

/-- The first start hands its settings on to all. -/
theorem invariant_didFistStartFlowCompleted (s : Application Text Data Date)
    (userSettings : UserSettingsModel Text) :
    Invariant json (s.didFistStartFlowCompleted json userSettings) :=
  .inr ⟨userSettings, ⟨rfl, rfl, rfl, rfl, getApplicationUserSettings_set _ _⟩, .both _ _⟩

/-- Calls of `finishCoordinator`, by induction on them. -/
theorem Invariant.finishCalls (hs : Invariant json s) {calls : List (FinishCall Text)}
    (h : calls.foldlM (Application.finishCall json) s = some t) : Invariant json t := by
  induction calls generalizing s with
  | nil =>
    obtain rfl := Option.some.inj h
    exact hs
  | cons call calls ih =>
    rw [List.foldlM_cons] at h
    obtain ⟨u, hu, h⟩ := Option.bind_eq_some_iff.mp h
    refine ih ?_ h
    cases call with
    | completed country currency =>
      obtain rfl := Option.some.inj hu
      exact invariant_didFistStartFlowCompleted s ⟨country, currency⟩
    | fatalError => cases hu

/-- The screens and the flow of the first start are not part of it. -/
theorem Invariant.congr (hs : Invariant json s) (happ : t.userSettings = s.userSettings)
    (hmain : t.mainFlow.userSettings = s.mainFlow.userSettings)
    (hpreferences : t.mainFlow.preferencesCoordinator.userSettings =
      s.mainFlow.preferencesCoordinator.userSettings)
    (hflights : t.mainFlow.flightsSearchCoordinator.userSettings =
      s.mainFlow.flightsSearchCoordinator.userSettings)
    (hpresenter : t.mainFlow.preferencesCoordinator.mainPreferencesModuleInput.map
        MainPreferencesPresenter.userSettings =
      s.mainFlow.preferencesCoordinator.mainPreferencesModuleInput.map
        MainPreferencesPresenter.userSettings)
    (hstored : getApplicationUserSettings json t.settings =
      getApplicationUserSettings json s.settings)
    (hchoices : t.choices = s.choices) : Invariant json t := by
  rcases hs with hs | ⟨userSettings, hs, hlast⟩
  · exact .inl ⟨hmain.trans hs.main, hpreferences.trans hs.preferences, hstored.trans hs.stored⟩
  · exact .inr ⟨userSettings, ⟨happ.trans hs.app, hpreferences.trans hs.preferences,
      hflights.trans hs.flightsSearch, hpresenter.trans hs.mainPreferences,
      hstored.trans hs.stored⟩, hchoices ▸ hlast⟩

/-- Showing a screen changes no setting. -/
theorem Invariant.setPreferences (hs : Invariant json s)
    (navigation : List (PreferencesScreen Text)) : Invariant json (s.setPreferences navigation) :=
  hs.congr rfl rfl rfl rfl rfl rfl rfl

/-- Popping a screen changes the screens only. -/
theorem exists_popViewController (c : PreferencesCoordinator Text) :
    ∃ navigation, c.popViewController = { c with navigation := navigation } := by
  unfold PreferencesCoordinator.popViewController
  split
  · exact ⟨_, rfl⟩
  · exact ⟨c.navigation, rfl⟩

/-- A change that is finished reaches all copies. -/
theorem Copies.didSelectorFinish (hs : Copies json s userSettings)
    (change : UserSettingsModel Text → UserSettingsModel Text) :
    Copies json (s.didSelectorFinish json change) (change userSettings) := by
  obtain ⟨presenter, hpresenter, -⟩ := Option.map_eq_some_iff.mp hs.mainPreferences
  simp only [Application.didSelectorFinish, hs.preferences, Application.mainDidChangeUserSettings,
    Application.didChangeUserSettings, hpresenter, Option.map_some]
  -- The selector is popped at the end, which changes none of the copies.
  generalize hc : PreferencesCoordinator.mk _ _ _ = c
  obtain ⟨navigation, hpop⟩ := exists_popViewController c
  rw [hpop, ← hc]
  exact ⟨rfl, rfl, rfl, rfl, getApplicationUserSettings_set _ _⟩

/-- Without settings a selector changes nothing. -/
theorem Waiting.didSelectorFinish (hs : Waiting json s)
    (change : UserSettingsModel Text → UserSettingsModel Text) :
    Waiting json (s.didSelectorFinish json change) := by
  rw [Application.didSelectorFinish, hs.preferences]
  exact hs

/-- A selector that finishes leaves the record of the choices; what calls it adds to the record. -/
theorem choices_didSelectorFinish (s : Application Text Data Date)
    (change : UserSettingsModel Text → UserSettingsModel Text) :
    (s.didSelectorFinish json change).choices = s.choices := by
  unfold Application.didSelectorFinish
  split <;> rfl

/-- A choice that changes one field, as the choice says. -/
theorem Invariant.didSelectorFinish (hs : Invariant json s) (choice : Choice Text)
    (change : UserSettingsModel Text → UserSettingsModel Text)
    (hchange : ∀ userSettings, LastChosen s.choices userSettings →
      LastChosen (choice :: s.choices) (change userSettings)) :
    Invariant json (Application.didSelectorFinish json
      { s with choices := choice :: s.choices } change) := by
  rcases hs with hs | ⟨userSettings, hs, hlast⟩
  · -- The coordinator was not started, and its guard returns.
    left
    apply Waiting.didSelectorFinish
    exact ⟨hs.main, hs.preferences, hs.stored⟩
  · right
    refine ⟨change userSettings, Copies.didSelectorFinish ?_ change, ?_⟩
    · exact ⟨hs.app, hs.preferences, hs.flightsSearch, hs.mainPreferences, hs.stored⟩
    rw [choices_didSelectorFinish]
    exact hchange userSettings hlast

/-- A chosen country is stored with the currency that was chosen last. -/
theorem Invariant.didCountrySelectorFinish (hs : Invariant json s)
    (model : MarketCountryModel Text) : Invariant json (s.didCountrySelectorFinish json model) :=
  hs.didSelectorFinish (.country model) _ fun _ hlast => hlast.cons_country model

/-- A chosen currency is stored with the country that was chosen last. -/
theorem Invariant.didCurrencySelectorFinish (hs : Invariant json s)
    (model : CurrencyModel Text) : Invariant json (s.didCurrencySelectorFinish json model) :=
  hs.didSelectorFinish (.currency model) _ fun _ hlast => hlast.cons_currency model

/-- A change of a screen at some depth changes no setting. -/
theorem Invariant.atDepth (hs : Invariant json s) {depth : Nat}
    {f : PreferencesScreen Text → Option (PreferencesScreen Text)}
    (h : s.atDepth depth f = some t) : Invariant json t := by
  obtain ⟨screen, -, h⟩ := Option.bind_eq_some_iff.mp h
  obtain ⟨screen', -, rfl⟩ := Option.map_eq_some_iff.mp h
  exact hs.setPreferences _

variable [LT Text] [DecidableLT Text] {interpolate : Text → Text → Text}

/-- Opening a selector changes no setting. -/
theorem Invariant.selectType (hs : Invariant json s) {row : Nat}
    (h : s.selectType interpolate row = some t) : Invariant json t := by
  obtain ⟨presenter, -, h⟩ := Option.bind_eq_some_iff.mp h
  obtain ⟨cellType, -, rfl⟩ := Option.map_eq_some_iff.mp h
  exact hs.congr rfl rfl rfl rfl rfl rfl rfl

variable [DecidableEq Text]

/-- An event of the first start keeps the invariant: what it chose is stored by its calls of
`finishCoordinator`. -/
theorem Invariant.firstStart (hs : Invariant json s) {e : FirstStart.Event Text}
    (h : s.firstStart json interpolate e = some t) : Invariant json t := by
  obtain ⟨flow, -, h⟩ := Option.bind_eq_some_iff.mp h
  have hflow : Invariant json { s with firstStartFlow := flow } :=
    hs.congr rfl rfl rfl rfl rfl rfl rfl
  exact hflow.finishCalls h

/-- Selecting a row changes the screen. Nothing is stored before the button is pressed. -/
theorem Invariant.select (hs : Invariant json s) {row : Nat}
    (h : s.select interpolate row = some t) : Invariant json t := by
  unfold Application.select at h
  split at h
  · obtain ⟨item, -, rfl⟩ := Option.map_eq_some_iff.mp h
    exact hs.setPreferences _
  · obtain ⟨item, -, rfl⟩ := Option.map_eq_some_iff.mp h
    exact hs.setPreferences _
  · cases h

/-- The button of a selector stores the selected item, if this is among the models. -/
theorem Invariant.continueButtonPress (hs : Invariant json s)
    (h : s.continueButtonPress json interpolate = some t) : Invariant json t := by
  unfold Application.continueButtonPress at h
  split at h
  · split at h
    · -- The selected item is not among the models, so the selector does not finish.
      obtain rfl := Option.some.inj h
      exact hs
    · obtain rfl := Option.some.inj h
      exact hs.didCountrySelectorFinish _
  · split at h
    · obtain rfl := Option.some.inj h
      exact hs
    · obtain rfl := Option.some.inj h
      exact hs.didCurrencySelectorFinish _
  · obtain rfl := Option.some.inj h
    exact hs
  · cases h

/-- Every event preserves the invariant. -/
theorem Invariant.step (hs : Invariant json s) {e : AppEvent Text Data Date}
    (h : s.step json interpolate e = some t) : Invariant json t := by
  cases e with
  | relaunch =>
    obtain rfl := Option.some.inj h
    refine invariant_launch s.settings fun userSettings hstored => ?_
    -- What the launch reads is what the last change stored.
    rcases hs with hs | ⟨userSettings', hs, hlast⟩
    · cases hs.stored.symm.trans hstored
    · obtain rfl := Option.some.inj (hs.stored.symm.trans hstored)
      exact hlast
  | firstStart e => exact hs.firstStart h
  | viewIsReady =>
    obtain ⟨presenter, hpresenter, rfl⟩ := Option.map_eq_some_iff.mp h
    -- The presenter shows its copy, and keeps it.
    refine hs.congr rfl rfl rfl rfl ?_ rfl rfl
    rw [hpresenter]
    rfl
  | selectType row => exact hs.selectType h
  | select row => exact hs.select h
  | continueButtonPress => exact hs.continueButtonPress h
  | back =>
    obtain rfl := Option.some.inj h
    obtain ⟨navigation, hpop⟩ := exists_popViewController s.mainFlow.preferencesCoordinator
    rw [hpop]
    exact hs.setPreferences navigation
  | loadCountries depth load => exact hs.atDepth h
  | loadCurrencies depth load => exact hs.atDepth h
  | setValue key value =>
    -- The other keys are not that of the user settings.
    obtain rfl := Option.some.inj h
    exact hs.congr rfl rfl rfl rfl rfl (getApplicationUserSettings_setValue _ key value) rfl

/-- For every run, from any stored settings or from none: once the main flow is started, all copies
and what is stored are the same settings, and these consist of the country and the currency that
were chosen last. -/
theorem copies_lastChosen {settings : Settings Data Date}
    (h : Steps (Application.step json interpolate) (fun _ _ => True) (.start json settings) s)
    (hstarted : s.mainFlow.userSettings.isSome) :
    ∃ userSettings, Copies json s userSettings ∧ LastChosen s.choices userSettings := by
  have hs : Invariant json s := h.invariant (I := Invariant json) (invariant_start settings)
    fun s e t hs _ hstep => hs.step hstep
  rcases hs with hs | hs
  · -- The main flow was started, so it does not wait.
    rw [hs.main] at hstarted
    cases hstarted
  · exact hs

end

/-- The model itself as its data. -/
def exampleJSON : JSONCoder (UserSettingsModel String) (UserSettingsModel String) where
  encode := some
  decode := some
  round_trip model := ⟨model, rfl, rfl⟩

/-- Another country and another currency. -/
def france : MarketCountryModel String := ⟨"FR", "France"⟩
/-- A currency for the runs below. -/
def dollar : CurrencyModel String := ⟨"USD", "$", "1,234.56"⟩

/-- The first start, a change of the currency, a relaunch, and a change of the country. -/
def exampleChanges : List (AppEvent String (UserSettingsModel String) Nat) :=
  (FirstStart.exampleEvents ++ [FirstStart.Event.continueButtonPress]).map .firstStart ++
  [.viewIsReady, .selectType 1, .loadCurrencies 0 (.didObtain [FirstStart.euro, dollar]),
    .loadCurrencies 0 .present, .select 1, .continueButtonPress, .relaunch, .viewIsReady,
    .selectType 0, .loadCountries 0 (.didObtain [FirstStart.germany, france]),
    .loadCountries 0 .present, .select 0, .continueButtonPress]

/-- The currency that was changed before the relaunch is still there. -/
theorem copies_france_dollar :
    ∃ s : Application String (UserSettingsModel String) Nat,
      s.userSettings = some ⟨france, dollar⟩ ∧
      ∃ userSettings, Copies exampleJSON s userSettings ∧ LastChosen s.choices userSettings := by
  have hrun : (runActions (guarded (Application.step exampleJSON FirstStart.exampleTitle)
      fun _ _ => true) (.start exampleJSON fun _ => none) exampleChanges).map (fun s =>
        (s.userSettings, s.mainFlow.userSettings.isSome)) =
      some (some ⟨france, dollar⟩, true) := by decide +kernel
  obtain ⟨s, hs, hresult⟩ := Option.map_eq_some_iff.mp hrun
  obtain ⟨hsettings, hstarted⟩ := Prod.mk.injEq .. ▸ hresult
  have hsteps : Steps (Application.step exampleJSON FirstStart.exampleTitle) (fun _ _ => True)
      (.start exampleJSON fun _ => none) s :=
    steps_of_runActions (fun _ _ _ => trivial) hs
  exact ⟨s, hsettings, copies_lastChosen hsteps hstarted⟩

end TSubSpec.BestFlight
