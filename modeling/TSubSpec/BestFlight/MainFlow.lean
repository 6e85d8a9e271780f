import TSubSpec.BestFlight.SearchForm
import TSubSpec.FirstStart.Flow

/-!
# `TSubSpec.BestFlight.MainFlow`: the user settings and their copies

The user settings are a country and a currency. `AppCoordinator` keeps a copy of what it stores,
and the main flow starts with it. `MainCoordinator`, the coordinators of its two tabs, and the
presenter of the preferences list have copies of their own. A selector in the preferences changes
one of the two fields, and a chain of calls passes the new settings on.

`step` is what the application does at an event. It is started with what is stored, so a relaunch
is an event too. The first start is the flow of `FirstStart.Flow`, and the selectors are the same
screens. The choices that were finished are carried along to state what the settings consist of.
They take no part in a step.

Left out: the tab bar with its texts, and in the search flow all but the copy of the settings.
`MainCoordinator.didUserSettingsChanged` is called by nobody.
-/

set_option autoImplicit false

namespace TSubSpec.BestFlight

open TSubSpec.FirstStart (MarketCountryModel CurrencyModel SelectorScreen Load Flow countries
  currencies)

/-- `UserSettingsModel`. -/
structure UserSettingsModel (Text : Type) where
  country : MarketCountryModel Text
  currency : CurrencyModel Text
  deriving DecidableEq, Repr

/-! ### The store -/

/-- `obtainKey` of `AppSettingsManager` for the user settings. -/
def userSettingsKey : String := "application" ++ "userSettings".capitalize

/-- The other keys of the store: those of the search form, and `LanguagesService.languageKey`. -/
inductive OtherKey where
  | searchForm (key : SettingKey)
  | language
  deriving DecidableEq, Repr

/-- The key as a text. -/
def OtherKey.text : OtherKey → String
  | .searchForm key => obtainKey key
  | .language => "language"

section

variable {Text Data Date : Type} (json : JSONCoder (UserSettingsModel Text) Data)

/-- `AppSettingsManager.setApplicationUserSettings`. -/
def setApplicationUserSettings (settings : Settings Data Date)
    (userSettings : UserSettingsModel Text) : Settings Data Date :=
  match json.encode userSettings with
  -- `try?` drops the error, and nothing is stored.
  | none => settings
  | some data => setValue settings userSettingsKey (.data data)

/-- `AppSettingsManager.getApplicationUserSettings`. -/
def getApplicationUserSettings (settings : Settings Data Date) :
    Option (UserSettingsModel Text) :=
  match settings userSettingsKey with
  | some (.data data) => json.decode data
  | _ => none

end

/-! ### The coordinators of the main flow -/

section

variable (Text : Type)

/-- `MainPreferencesCellType`. -/
inductive MainPreferencesCellType where
  | language (currentLanguage : Text)
  | contry (currentCountry : Text)
  | currency (currentCurrency : Text)
  deriving DecidableEq, Repr

/-- `MainPreferencesPresenter`, and the rows of its view. -/
structure MainPreferencesPresenter where
  userSettings : UserSettingsModel Text
  types : List (MainPreferencesCellType Text)

/-- A screen of the preferences. The presenter of the list is with the coordinator. -/
inductive PreferencesScreen where
  | preferencesList
  | language
  | currency (screen : SelectorScreen Text (CurrencyModel Text))
  | country (screen : SelectorScreen Text (MarketCountryModel Text))

/-- `PreferencesCoordinator`, with the screen on top first. -/
structure PreferencesCoordinator where
  userSettings : Option (UserSettingsModel Text)
  mainPreferencesModuleInput : Option (MainPreferencesPresenter Text)
  navigation : List (PreferencesScreen Text)

/-- `FlightsSearchCoodinator`. -/
structure FlightsSearchCoodinator where
  userSettings : Option (UserSettingsModel Text)

/-- `MainCoordinator`. -/
structure MainCoordinator where
  userSettings : Option (UserSettingsModel Text)
  flightsSearchCoordinator : FlightsSearchCoodinator Text
  preferencesCoordinator : PreferencesCoordinator Text

/-- `PreferencesModules`, without the list. -/
inductive PreferencesModules where
  | language
  | country
  | currency
  deriving DecidableEq, Repr

variable {Text}

/-- `showItems`. -/
def MainPreferencesPresenter.showItems (presenter : MainPreferencesPresenter Text) :
    MainPreferencesPresenter Text :=
  { presenter with
    types := [.contry presenter.userSettings.country.name,
      .currency presenter.userSettings.currency.code] }

/-- `userSettingsUpdated`. -/
def MainPreferencesPresenter.userSettingsUpdated (presenter : MainPreferencesPresenter Text)
    (userSettings : UserSettingsModel Text) : MainPreferencesPresenter Text :=
  { presenter with userSettings := userSettings }.showItems

/-- `PreferencesCoordinator.startCoordinator`. -/
def PreferencesCoordinator.startCoordinator (userSettings : UserSettingsModel Text) :
    PreferencesCoordinator Text where
  userSettings := some userSettings
  mainPreferencesModuleInput := some ⟨userSettings, []⟩
  navigation := [.preferencesList]

/-- `MainCoordinator.startCoordinator`. -/
def MainCoordinator.startCoordinator (userSettings : UserSettingsModel Text) :
    MainCoordinator Text where
  userSettings := some userSettings
  flightsSearchCoordinator := ⟨some userSettings⟩
  preferencesCoordinator := .startCoordinator userSettings

/-- The coordinators before they are started. -/
def MainCoordinator.idle : MainCoordinator Text := ⟨none, ⟨none⟩, ⟨none, none, []⟩⟩

/-- `popViewController`. The first screen stays. -/
def PreferencesCoordinator.popViewController (c : PreferencesCoordinator Text) :
    PreferencesCoordinator Text :=
  match c.navigation with
  | _ :: below :: rest => { c with navigation := below :: rest }
  | _ => c

variable [DecidableEq Text] [LT Text] [DecidableLT Text] (interpolate : Text → Text → Text)

/-- `createView`. -/
def PreferencesCoordinator.createView (c : PreferencesCoordinator Text) :
    PreferencesModules → PreferencesScreen Text
  | .language => .language
  | .country => .country (countries.ready (c.userSettings.map UserSettingsModel.country))
  | .currency =>
    .currency ((currencies interpolate).ready (c.userSettings.map UserSettingsModel.currency))

/-- `didFinishMainPreferencesLanguage`, `didFinishMainPreferencesCountry` and
`didFinishMainPreferencesCurrency`. -/
def PreferencesCoordinator.didFinishMainPreferences (c : PreferencesCoordinator Text)
    (type : PreferencesModules) : PreferencesCoordinator Text :=
  { c with navigation := c.createView interpolate type :: c.navigation }

/-- `MainPreferencesPresenter.didSelect`: the module that is asked for. -/
def MainPreferencesCellType.didSelect : MainPreferencesCellType Text → PreferencesModules
  | .language _ => .language
  | .contry _ => .country
  | .currency _ => .currency

end

/-! ### The application -/

/-- A choice that was finished: both fields at the first start, or one in the preferences. -/
inductive Choice (Text : Type) where
  | both (userSettings : UserSettingsModel Text)
  | country (model : MarketCountryModel Text)
  | currency (model : CurrencyModel Text)
  deriving DecidableEq, Repr

/-- `AppCoordinator.LaunchMode`. -/
inductive LaunchMode where
  | undefined
  | firstStart
  | main
  deriving DecidableEq, Repr

/-- `AppCoordinator` with its child flows, and the store. The settings of the user are in several of
these at once. -/
structure Application (Text Data Date : Type) where
  settings : Settings Data Date
  launchMode : LaunchMode
  userSettings : Option (UserSettingsModel Text)
  firstStartFlow : Flow Text
  mainFlow : MainCoordinator Text
  /-- The choices that were finished, the last one first. -/
  choices : List (Choice Text)

/-- What happens to the application. -/
inductive AppEvent (Text Data Date : Type) where
  | relaunch
  | firstStart (e : FirstStart.Event Text)
  | viewIsReady
  | selectType (row : Nat)
  | select (row : Nat)
  | continueButtonPress
  | back
  | loadCountries (depth : Nat) (load : Load Text (MarketCountryModel Text))
  | loadCurrencies (depth : Nat) (load : Load Text (CurrencyModel Text))
  | setValue (key : OtherKey) (value : Value Data Date)

section

variable {Text Data Date : Type} (json : JSONCoder (UserSettingsModel Text) Data)

/-- `setupLaunchMode`. -/
def Application.setupLaunchMode (s : Application Text Data Date) : Application Text Data Date :=
  match getApplicationUserSettings json s.settings with
  | none => { s with launchMode := .firstStart }
  | some userSettings => { s with userSettings := some userSettings, launchMode := .main }

/-- `startApplication`. -/
def Application.startApplication (s : Application Text Data Date) :
    Application Text Data Date :=
  match s.launchMode, s.userSettings with
  -- There is no module to show.
  | .undefined, _ => s
  | .firstStart, _ => { s with firstStartFlow := .start }
  | .main, some userSettings => { s with mainFlow := .startCoordinator userSettings }
  | .main, none => { s with firstStartFlow := .start }

/-- A launch: `init` and `startApplication`. Nothing of an earlier launch is left but the store. -/
def Application.launch (settings : Settings Data Date) (choices : List (Choice Text)) :
    Application Text Data Date :=
  (Application.setupLaunchMode json
    ⟨settings, .undefined, none, ⟨[], none, none, []⟩, .idle, choices⟩).startApplication

/-- The first launch. The settings that are stored count as chosen. -/
def Application.start (settings : Settings Data Date) : Application Text Data Date :=
  .launch json settings ((getApplicationUserSettings json settings).map Choice.both).toList

/-- `AppCoordinator.didFistStartFlowCompleted`. -/
def Application.didFistStartFlowCompleted (s : Application Text Data Date)
    (userSettings : UserSettingsModel Text) : Application Text Data Date :=
  { s with
    choices := .both userSettings :: s.choices
    userSettings := some userSettings
    settings := setApplicationUserSettings json s.settings userSettings
    mainFlow := .startCoordinator userSettings }

/-- `AppCoordinator.didChangeUserSettings`: the settings are taken over, and stored. -/
def Application.didChangeUserSettings (s : Application Text Data Date)
    (userSettings : UserSettingsModel Text) : Application Text Data Date :=
  { s with
    userSettings := some userSettings
    settings := setApplicationUserSettings json s.settings userSettings }

/-- `MainCoordinator.didChangeUserSettings`: the settings are passed on. Its own copy stays as it
is. -/
def Application.mainDidChangeUserSettings (s : Application Text Data Date)
    (userSettings : UserSettingsModel Text) : Application Text Data Date :=
  let s := s.didChangeUserSettings json userSettings
  { s with mainFlow.flightsSearchCoordinator.userSettings := some userSettings }

/-- What `didCountrySelectorFinish` and `didCurrencySelectorFinish` of the preferences do, with the
change of one field. -/
def Application.didSelectorFinish (s : Application Text Data Date)
    (change : UserSettingsModel Text → UserSettingsModel Text) : Application Text Data Date :=
  match s.mainFlow.preferencesCoordinator.userSettings with
  | none => s
  | some settings =>
    -- The copy of the coordinator first, then the chain of calls, and then the list.
    let settings := change settings
    let s := { s with mainFlow.preferencesCoordinator.userSettings := some settings }
    let s := s.mainDidChangeUserSettings json settings
    let c := s.mainFlow.preferencesCoordinator
    let c := { c with
      mainPreferencesModuleInput := c.mainPreferencesModuleInput.map
        (MainPreferencesPresenter.userSettingsUpdated · settings) }
    { s with mainFlow.preferencesCoordinator := c.popViewController }

/-- `PreferencesCoordinator.didCountrySelectorFinish`. -/
def Application.didCountrySelectorFinish (s : Application Text Data Date)
    (model : MarketCountryModel Text) : Application Text Data Date :=
  { s with choices := .country model :: s.choices }.didSelectorFinish json fun settings =>
    { settings with country := model }

/-- `PreferencesCoordinator.didCurrencySelectorFinish`. -/
def Application.didCurrencySelectorFinish (s : Application Text Data Date)
    (model : CurrencyModel Text) : Application Text Data Date :=
  { s with choices := .currency model :: s.choices }.didSelectorFinish json fun settings =>
    { settings with currency := model }

/-- The preferences change, and nothing else. -/
def Application.setPreferences (s : Application Text Data Date)
    (navigation : List (PreferencesScreen Text)) : Application Text Data Date :=
  { s with mainFlow.preferencesCoordinator.navigation := navigation }

/-- The list of the preferences is loaded. -/
def Application.viewIsReady (s : Application Text Data Date) :
    Option (Application Text Data Date) :=
  s.mainFlow.preferencesCoordinator.mainPreferencesModuleInput.map fun presenter =>
    { s with
      mainFlow.preferencesCoordinator.mainPreferencesModuleInput := some presenter.showItems }

/-- A screen of the preferences changes. -/
def Application.atDepth (s : Application Text Data Date) (depth : Nat)
    (f : PreferencesScreen Text → Option (PreferencesScreen Text)) :
    Option (Application Text Data Date) :=
  let navigation := s.mainFlow.preferencesCoordinator.navigation
  (navigation[depth]?).bind fun screen => (f screen).map fun screen =>
    s.setPreferences (navigation.set depth screen)

/-- The calls of `finishCoordinator` in a step of the first start, in order. -/
def finishCallsSince (before after : Flow Text) : List (FirstStart.FinishCall Text) :=
  (after.finishCalls.take (after.finishCalls.length - before.finishCalls.length)).reverse

/-- A call of `finishCoordinator` of the first start. A call that fails ends the program. -/
def Application.finishCall (s : Application Text Data Date) :
    FirstStart.FinishCall Text → Option (Application Text Data Date)
  | .completed country currency => some (s.didFistStartFlowCompleted json ⟨country, currency⟩)
  | .fatalError => none

variable [DecidableEq Text] [LT Text] [DecidableLT Text] (interpolate : Text → Text → Text)

/-- An event of the first start. -/
def Application.firstStart (s : Application Text Data Date) (e : FirstStart.Event Text) :
    Option (Application Text Data Date) :=
  (FirstStart.step interpolate s.firstStartFlow e).bind fun flow =>
    (finishCallsSince s.firstStartFlow flow).foldlM (Application.finishCall json)
      { s with firstStartFlow := flow }

/-- A row of the preferences list is selected. -/
def Application.selectType (s : Application Text Data Date) (row : Nat) :
    Option (Application Text Data Date) :=
  let c := s.mainFlow.preferencesCoordinator
  c.mainPreferencesModuleInput.bind fun presenter => (presenter.types[row]?).map fun cellType =>
    { s with
      mainFlow.preferencesCoordinator := c.didFinishMainPreferences interpolate cellType.didSelect }

/-- A row of the selector on top is selected. The coordinator does not want to know. -/
def Application.select (s : Application Text Data Date) (row : Nat) :
    Option (Application Text Data Date) :=
  match s.mainFlow.preferencesCoordinator.navigation with
  | .country screen :: rest => (screen.items[row]?).map fun item =>
    s.setPreferences (.country (countries.didSelect screen item) :: rest)
  | .currency screen :: rest => (screen.items[row]?).map fun item =>
    s.setPreferences (.currency ((currencies interpolate).didSelect screen item) :: rest)
  | _ => none

/-- The screen on top handles the continue button. A selector does nothing if its selected item is
not among its models, and the coordinator does nothing for the language. -/
def Application.continueButtonPress (s : Application Text Data Date) :
    Option (Application Text Data Date) :=
  match s.mainFlow.preferencesCoordinator.navigation with
  | .country screen :: _ =>
    -- `modelFrom` looks for the identifier of the selected item.
    match countries.modelFrom screen.models screen.selectedItem with
    | none => some s
    | some model => some (s.didCountrySelectorFinish json model)
  | .currency screen :: _ =>
    match (currencies interpolate).modelFrom screen.models screen.selectedItem with
    | none => some s
    | some model => some (s.didCurrencySelectorFinish json model)
  | .language :: _ => some s
  | _ => none

/-- A part of the load of a screen. -/
def PreferencesScreen.loadCountries (load : Load Text (MarketCountryModel Text)) :
    PreferencesScreen Text → Option (PreferencesScreen Text)
  | .country screen => (countries.load screen load).map .country
  | _ => none

/-- A part of the load of a screen. -/
def PreferencesScreen.loadCurrencies (load : Load Text (CurrencyModel Text)) :
    PreferencesScreen Text → Option (PreferencesScreen Text)
  | .currency screen => ((currencies interpolate).load screen load).map .currency
  | _ => none

/-- An event. -/
def Application.step (s : Application Text Data Date) :
    AppEvent Text Data Date → Option (Application Text Data Date)
  | .relaunch => some (.launch json s.settings s.choices)
  | .firstStart e => s.firstStart json interpolate e
  | .viewIsReady => s.viewIsReady
  | .selectType row => s.selectType interpolate row
  | .select row => s.select interpolate row
  | .continueButtonPress => s.continueButtonPress json interpolate
  | .back => some { s with
      mainFlow.preferencesCoordinator := s.mainFlow.preferencesCoordinator.popViewController }
  | .loadCountries depth load => s.atDepth depth (PreferencesScreen.loadCountries load)
  | .loadCurrencies depth load =>
    s.atDepth depth (PreferencesScreen.loadCurrencies interpolate load)
  | .setValue key value => some { s with settings := setValue s.settings key.text value }

end

end TSubSpec.BestFlight
