import Mathlib.Data.List.Induction
import Mathlib.Data.List.ReduceOption

/-!
# `TSubSpec.BestFlight.SearchForm`: the search form and its settings

The presenter of the form holds two countries and a date, and saves what is chosen in the settings.
`handle` is what it does at an event, together with the settings after it. `viewIsReady` is how a
new presenter begins. The settings are the store of the whole application: any value can be there
for any key, and the form writes three keys.

The countries are saved whenever they are held. A date is saved when one is picked, and not when
the dialog is dismissed, which clears the date that the presenter holds. `restored_iff` says when a
new presenter begins as the old one ended.

Left out: the texts of the view, which `updateUI` makes of the three fields.
-/

set_option autoImplicit false

namespace TSubSpec.BestFlight

/-! ### Settings -/

/-- `JSONEncoder` and `JSONDecoder` on the models of a type. What is encoded can be decoded. -/
structure JSONCoder (Model Data : Type) where
  encode : Model → Option Data
  decode : Data → Option Model
  round_trip : ∀ model, ∃ data, encode model = some data ∧ decode data = some model

/-- A value of `UserDefaults`. -/
inductive Value (Data Date : Type) where
  | data (data : Data)
  | date (date : Date)
  | other
  deriving Repr

/-- What `UserDefaults` holds. -/
abbrev Settings (Data Date : Type) := String → Option (Value Data Date)

/-- `FlightSearchSettingsManager.SettingKey`. -/
inductive SettingKey where
  | fromCountry
  | toCountry
  | date
  deriving DecidableEq, Repr

/-- The raw values. -/
def SettingKey.rawValue : SettingKey → String
  | .fromCountry => "fromCountry"
  | .toCountry => "toCountry"
  | .date => "date"

/-- `obtainKey`, with the prefix of the form. -/
def obtainKey (key : SettingKey) : String := "searchForm" ++ key.rawValue.capitalize

/-- The keys are different. -/
theorem obtainKey_injective {k k' : SettingKey} (h : obtainKey k = obtainKey k') : k = k' := by
  cases k <;> cases k' <;> first | rfl | exact absurd h (by decide +kernel)

section

variable {Country Data Date : Type} (json : JSONCoder Country Data)

/-- `SettingsService.setValue`. -/
def setValue (settings : Settings Data Date) (key : String) (value : Value Data Date) :
    Settings Data Date :=
  fun k => if k = key then some value else settings k

/-- `saveFromCountry` and `saveToCountry`: the country is encoded and stored. One that cannot be
encoded is not. -/
def saveCountry (settings : Settings Data Date) (key : SettingKey) (country : Country) :
    Settings Data Date :=
  match json.encode country with
  | none => settings
  | some data => setValue settings (obtainKey key) (.data data)

/-- `saveDate`. -/
def saveDate (settings : Settings Data Date) (date : Date) : Settings Data Date :=
  setValue settings (obtainKey .date) (.date date)

/-- `loadFromCountry` and `loadToCountry`: what is stored is decoded, if it is there. -/
def loadCountry (settings : Settings Data Date) (key : SettingKey) : Option Country :=
  match settings (obtainKey key) with
  | some (.data data) => json.decode data
  | _ => none

/-- `loadDate`. -/
def loadDate (settings : Settings Data Date) : Option Date :=
  match settings (obtainKey .date) with
  | some (.date date) => some date
  | _ => none

/-! ### The presenter -/

/-- `PlaceSelectorContext`. -/
inductive PlaceSelectorContext where
  | none
  | from
  | to
  deriving DecidableEq, Repr

/-- The fields of `FlightSearchFormPresenter`. -/
structure Presenter (Country Date : Type) where
  placeSelectorContext : PlaceSelectorContext
  fromCountryModel : Option Country
  toCountryModel : Option Country
  date : Option Date

/-- A presenter, and the settings that it shares with the rest of the application. -/
structure Form (Country Data Date : Type) where
  presenter : Presenter Country Date
  settings : Settings Data Date

/-- What happens to the form. A date that is not picked is a dialog that was dismissed. -/
inductive Event (Country Date : Type) where
  | didFromFieldPressed
  | didToFieldPressed
  | didPlaceSelectorSelectedPlace (countryModel : Country)
  | didDatePicked (date : Option Date)
  | didSearchButtonPressed
  deriving Repr

/-- A new presenter whose view is loaded: `init` and `viewIsReady`. It takes over what is stored. -/
def viewIsReady (settings : Settings Data Date) : Presenter Country Date where
  placeSelectorContext := .none
  fromCountryModel := loadCountry json settings .fromCountry
  toCountryModel := loadCountry json settings .toCountry
  date := loadDate settings

/-- `FlightSearchFormPresenter.didPlaceSelectorSelectedPlace`: the country goes to the field that
the selector was opened for, and is saved. -/
def didPlaceSelectorSelectedPlace (s : Form Country Data Date) (countryModel : Country) :
    Form Country Data Date :=
  match s.presenter.placeSelectorContext with
  | .from =>
    { presenter := { s.presenter with fromCountryModel := some countryModel }
      settings := saveCountry json s.settings .fromCountry countryModel }
  | .to =>
    { presenter := { s.presenter with toCountryModel := some countryModel }
      settings := saveCountry json s.settings .toCountry countryModel }
  | .none => s

/-- `FlightSearchFormPresenter.didDatePicked`: the date of the form is set or cleared. It is saved
only if there is one. -/
def didDatePicked (s : Form Country Data Date) (date : Option Date) : Form Country Data Date where
  presenter := { s.presenter with date := date }
  settings := match date with
    | some date => saveDate s.settings date
    | none => s.settings

/-- The presenter gets an event. -/
def handle (s : Form Country Data Date) : Event Country Date → Form Country Data Date
  | .didFromFieldPressed =>
    { s with presenter := { s.presenter with placeSelectorContext := .from } }
  | .didToFieldPressed =>
    { s with presenter := { s.presenter with placeSelectorContext := .to } }
  | .didPlaceSelectorSelectedPlace countryModel =>
    didPlaceSelectorSelectedPlace json s countryModel
  | .didDatePicked date => didDatePicked s date
  | .didSearchButtonPressed => s

/-- The form after the events, from these settings on. -/
def run (settings : Settings Data Date) (events : List (Event Country Date)) :
    Form Country Data Date :=
  events.foldl (handle json) ⟨viewIsReady json settings, settings⟩

/-! ### What is loaded after a save -/

section

variable {json} {settings : Settings Data Date}

/-- A value that was set is under its key. -/
theorem setValue_self (key : String) (value : Value Data Date) :
    setValue settings key value key = some value := if_pos rfl

/-- Setting a value leaves the other keys. -/
theorem setValue_of_ne {key k : String} (h : k ≠ key) (value : Value Data Date) :
    setValue settings key value k = settings k := if_neg h

/-- A country is saved as data that can be decoded. -/
theorem exists_saveCountry (key : SettingKey) (country : Country) :
    ∃ data, json.decode data = some country ∧
      saveCountry json settings key country = setValue settings (obtainKey key) (.data data) := by
  obtain ⟨data, hencode, hdecode⟩ := json.round_trip country
  exact ⟨data, hdecode, by rw [saveCountry, hencode]⟩

/-- A country is loaded as it was saved. -/
theorem loadCountry_saveCountry_self (key : SettingKey) (country : Country) :
    loadCountry json (saveCountry json settings key country) key = some country := by
  obtain ⟨data, hdecode, hsave⟩ := @exists_saveCountry _ _ _ json settings key country
  rw [hsave, loadCountry, setValue_self]
  exact hdecode

/-- The other settings of the form stay. -/
theorem saveCountry_of_ne {key k : SettingKey} (h : k ≠ key) (country : Country) :
    saveCountry json settings key country (obtainKey k) = settings (obtainKey k) := by
  obtain ⟨data, -, hsave⟩ := @exists_saveCountry _ _ _ json settings key country
  rw [hsave, setValue_of_ne fun hk => h (obtainKey_injective hk)]

/-- Saving a country leaves what is under the other keys. -/
theorem loadCountry_saveCountry {key k : SettingKey} (h : k ≠ key) (country : Country) :
    loadCountry json (saveCountry json settings key country) k = loadCountry json settings k := by
  rw [loadCountry, saveCountry_of_ne h, loadCountry]

/-- Saving a country leaves the date. -/
theorem loadDate_saveCountry {key : SettingKey} (h : .date ≠ key) (country : Country) :
    loadDate (saveCountry json settings key country) = loadDate settings := by
  rw [loadDate, saveCountry_of_ne h, loadDate]

/-- Saving the date leaves the countries. -/
theorem loadCountry_saveDate {key : SettingKey} (h : key ≠ .date) (date : Date) :
    loadCountry json (saveDate settings date) key = loadCountry json settings key := by
  rw [loadCountry, saveDate, setValue_of_ne fun hk => h (obtainKey_injective hk), loadCountry]

/-- A date that was saved is the one that is loaded. -/
theorem loadDate_saveDate (date : Date) : loadDate (saveDate settings date) = some date := by
  rw [loadDate, saveDate, setValue_self]

end

/-! ### What holds along a run -/

section

variable {json} {s : Form Country Data Date}

/-- A run with one event more. -/
theorem run_concat (settings : Settings Data Date) (events : List (Event Country Date))
    (e : Event Country Date) :
    run json settings (events ++ [e]) = handle json (run json settings events) e := by
  rw [run, List.foldl_append]
  rfl

/-- The countries that the presenter holds are those that are saved. -/
structure CountriesSaved (json : JSONCoder Country Data) (s : Form Country Data Date) : Prop where
  fromCountry : loadCountry json s.settings .fromCountry = s.presenter.fromCountryModel
  toCountry : loadCountry json s.settings .toCountry = s.presenter.toCountryModel

/-- Selecting a place saves it, so the form and the settings name the same countries again. -/
theorem CountriesSaved.didPlaceSelectorSelectedPlace (h : CountriesSaved json s)
    (country : Country) : CountriesSaved json (didPlaceSelectorSelectedPlace json s country) := by
  unfold BestFlight.didPlaceSelectorSelectedPlace
  split
  · exact ⟨loadCountry_saveCountry_self _ _,
      (loadCountry_saveCountry (by decide) _).trans h.toCountry⟩
  · exact ⟨(loadCountry_saveCountry (by decide) _).trans h.fromCountry,
      loadCountry_saveCountry_self _ _⟩
  · exact h

/-- The date picker changes no country, whether a date was picked or not. -/
theorem CountriesSaved.didDatePicked (h : CountriesSaved json s) (date : Option Date) :
    CountriesSaved json (didDatePicked s date) := by
  cases date with
  | none => exact ⟨h.fromCountry, h.toCountry⟩
  | some date =>
    exact ⟨(loadCountry_saveDate (by decide) date).trans h.fromCountry,
      (loadCountry_saveDate (by decide) date).trans h.toCountry⟩

/-- Every event keeps the countries saved. -/
theorem CountriesSaved.handle (h : CountriesSaved json s) (e : Event Country Date) :
    CountriesSaved json (handle json s e) := by
  cases e with
  | didPlaceSelectorSelectedPlace country => exact h.didPlaceSelectorSelectedPlace country
  | didDatePicked date => exact h.didDatePicked date
  | _ => exact ⟨h.fromCountry, h.toCountry⟩

/-- The countries are saved behind every run. The induction is on the events, from their end. -/
theorem CountriesSaved.run (settings : Settings Data Date) (events : List (Event Country Date)) :
    CountriesSaved json (run json settings events) := by
  induction events using List.reverseRecOn with
  | nil => exact ⟨rfl, rfl⟩
  | append_singleton events e ih =>
    rw [run_concat]
    exact ih.handle e

/-- The date that an event brings, which is none for a dialog that is dismissed. -/
def Event.date? : Event Country Date → Option (Option Date)
  | .didDatePicked date => some date
  | _ => none

/-- The dates that the events bring. -/
def dateEvents (events : List (Event Country Date)) : List (Option Date) :=
  events.filterMap Event.date?

/-- The events with a date of a run with one event more. -/
theorem dateEvents_concat (events : List (Event Country Date)) (e : Event Country Date) :
    dateEvents (events ++ [e]) = dateEvents events ++ e.date?.toList := by
  rw [dateEvents, dateEvents, List.filterMap_append]
  cases he : e.date? <;> simp [he]

/-- The presenter holds the date that an event brings. -/
theorem date_handle (e : Event Country Date) :
    (BestFlight.handle json s e).presenter.date = e.date?.getD s.presenter.date := by
  cases e with
  | didPlaceSelectorSelectedPlace country =>
    show (BestFlight.didPlaceSelectorSelectedPlace json s country).presenter.date = _
    unfold BestFlight.didPlaceSelectorSelectedPlace
    split <;> rfl
  | _ => rfl

/-- A date is saved only if it is picked. -/
theorem loadDate_handle (e : Event Country Date) :
    loadDate (BestFlight.handle json s e).settings = e.date?.join.or (loadDate s.settings) := by
  cases e with
  | didPlaceSelectorSelectedPlace country =>
    show loadDate (BestFlight.didPlaceSelectorSelectedPlace json s country).settings = _
    unfold BestFlight.didPlaceSelectorSelectedPlace
    split
    · exact loadDate_saveCountry (by decide) _
    · exact loadDate_saveCountry (by decide) _
    · rfl
  | didDatePicked date =>
    cases date with
    | none => rfl
    | some date => exact loadDate_saveDate date
  | _ => rfl

/-- The presenter holds the last date that was brought. -/
theorem date_run (settings : Settings Data Date) (events : List (Event Country Date)) :
    (BestFlight.run json settings events).presenter.date =
      (dateEvents events).getLast?.getD (loadDate settings) := by
  induction events using List.reverseRecOn with
  | nil => rfl
  | append_singleton events e ih =>
    rw [run_concat, date_handle, ih, dateEvents_concat]
    cases e.date? with
    | none => simp
    | some date => simp

/-- The last date that was picked is saved. -/
theorem loadDate_run (settings : Settings Data Date) (events : List (Event Country Date)) :
    loadDate (BestFlight.run json settings events).settings =
      (dateEvents events).reduceOption.getLast?.or (loadDate settings) := by
  induction events using List.reverseRecOn with
  | nil => rfl
  | append_singleton events e ih =>
    rw [run_concat, loadDate_handle, ih, dateEvents_concat, List.reduceOption_append]
    rcases e.date? with _ | _ | date
    · simp
    · simp [List.reduceOption_singleton]
    · simp [List.reduceOption_singleton]

end

/-! ### The next presenter -/

section

variable {json}

/-- A new presenter on the same settings holds what the old one held after the events: both
countries and the date. -/
def Restored (json : JSONCoder Country Data) (settings : Settings Data Date)
    (events : List (Event Country Date)) : Prop :=
  let s := run json settings events
  let next : Presenter Country Date := viewIsReady json s.settings
  next.fromCountryModel = s.presenter.fromCountryModel ∧
    next.toCountryModel = s.presenter.toCountryModel ∧ next.date = s.presenter.date

/-- If the last event with a date is a dialog that was dismissed, no date was stored before and
none was picked. -/
def DateKept (settings : Settings Data Date) (events : List (Event Country Date)) : Prop :=
  (dateEvents events).getLast? = some none →
    loadDate settings = none ∧ ∀ date ∈ dateEvents events, date = none

/-- For any settings and events: the form comes back as it was left exactly when the date was not
cleared. A dialog that is dismissed clears the date on the form, and the one that is stored
stays. -/
theorem restored_iff (settings : Settings Data Date) (events : List (Event Country Date)) :
    Restored json settings events ↔ DateKept settings events := by
  have hcountries : CountriesSaved json (run json settings events) :=
    CountriesSaved.run settings events
  have hdate : Restored json settings events ↔
      (dateEvents events).reduceOption.getLast?.or (loadDate settings) =
        (dateEvents events).getLast?.getD (loadDate settings) := by
    rw [← @loadDate_run _ _ _ json, ← @date_run _ _ _ json]
    exact ⟨fun h => h.2.2, fun h => ⟨hcountries.fromCountry, hcountries.toCountry, h⟩⟩
  -- Only the dates of the events matter, and of them the last one.
  rw [hdate, DateKept]
  generalize dateEvents events = dates
  induction dates using List.reverseRecOn with
  | nil => simp
  | append_singleton dates date _ =>
    cases date with
    | some date => simp [List.reduceOption_append, List.reduceOption_singleton]
    | none =>
      -- The presenter holds no date now, so the settings must not hold one either.
      have hnone : dates.reduceOption = [] ↔ ∀ date ∈ dates, date = none :=
        List.filterMap_eq_nil_iff (f := id)
      simp only [List.reduceOption_append, List.reduceOption_singleton, Option.toList_none,
        List.append_nil, List.getLast?_concat, Option.getD_some, Option.or_eq_none_iff,
        List.getLast?_eq_none_iff, hnone, true_imp_iff]
      constructor
      · rintro ⟨hdates, hstored⟩
        exact ⟨hstored, List.forall_mem_append.mpr ⟨hdates, by simp⟩⟩
      · rintro ⟨hstored, hdates⟩
        exact ⟨(List.forall_mem_append.mp hdates).1, hstored⟩

end

end

/-- A date is picked, and then the dialog is opened again and dismissed. -/
theorem not_restored_dismissed :
    ¬ ∀ (Country Data Date : Type) (json : JSONCoder Country Data) (settings : Settings Data Date)
      (events : List (Event Country Date)), Restored json settings events := by
  intro hall
  have hrestored := hall String String Nat ⟨some, some, fun name => ⟨name, rfl, rfl⟩⟩
    (fun _ => none) [.didDatePicked (some 20250101), .didDatePicked none]
  have hdate : some 20250101 = none := hrestored.2.2
  cases hdate

end TSubSpec.BestFlight
