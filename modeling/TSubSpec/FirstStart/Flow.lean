import Mathlib.Data.List.Sort
import TSubSpec.Lib.Machine

/-!
# `TSubSpec.FirstStart.Flow`: the flow of the first start

The coordinator shows four screens on a navigation stack: languages, welcome, countries and
currencies. The last two are selectors: a presenter with the models and the selected item, and a
view with the items. `step` delivers an event to the screen on top, or lets the load of a selector
go on.

Texts are a type with an equality and an order, those of the strings of the language. The
selectors have one definition, and differ in the models (`countries`, `currencies`).
The refresh control is never attached to a view, so a selector loads once. What the language screen
changes is not part of the flow.
-/

set_option autoImplicit false

namespace TSubSpec.FirstStart

/-! ### Models -/

/-- `MarketCountryModel`. -/
structure MarketCountryModel (Text : Type) where
  code : Text
  name : Text
  deriving DecidableEq, Repr

/-- `CurrencyModel`. The flow passes on the rest of its fields, which are its format. -/
structure CurrencyModel (Text : Type) where
  code : Text
  symbol : Text
  format : Text
  deriving DecidableEq, Repr

/-- `MarketCountryViewModel` and `MarketCurrencyViewModel`. -/
structure ViewModel (Text : Type) where
  identifier : Text
  title : Text
  selected : Bool
  deriving DecidableEq, Repr

/-- What a selector knows about its models. -/
structure Selector (Text Model : Type) where
  code : Model → Text
  title : Model → Text
  precedes : Model → Model → Bool

section

variable {Text Model : Type} [DecidableEq Text]

/-- The selector of the countries, by name. -/
def countries [LT Text] [DecidableLT Text] : Selector Text (MarketCountryModel Text) where
  code := MarketCountryModel.code
  title := MarketCountryModel.name
  precedes a b := a.name < b.name

/-- The selector of the currencies, by code. The title is made from the code and the symbol. -/
def currencies [LT Text] [DecidableLT Text] (interpolate : Text → Text → Text) :
    Selector Text (CurrencyModel Text) where
  code := CurrencyModel.code
  title model := interpolate model.code model.symbol
  precedes a b := a.code < b.code

/-! ### Selectors -/

/-- How far the load of a selector is. The result is taken over when it comes, and shown later on
the main queue. -/
inductive LoadState (Text : Type) where
  | pending
  | obtained
  | notObtained (errorText : Text)
  | finished
  deriving DecidableEq, Repr

/-- The presenter of a selector and its view. -/
structure SelectorScreen (Text Model : Type) where
  models : List Model
  selectedItem : Option (ViewModel Text)
  load : LoadState Text
  items : List (ViewModel Text)
  continueEnabled : Bool
  loading : Bool
  error : Option Text
  deriving DecidableEq, Repr

variable (sel : Selector Text Model)

/-- `MarketCountryViewModel.init` and `MarketCurrencyViewModel.init`. -/
def Selector.viewModel (model : Model) (selected : Bool) : ViewModel Text :=
  ⟨sel.code model, sel.title model, selected⟩

/-- The items of `showModels`. -/
def Selector.showModels (models : List Model) (selectedItem : Option (ViewModel Text)) :
    List (ViewModel Text) :=
  models.map fun model =>
    sel.viewModel model (some (sel.code model) = selectedItem.map ViewModel.identifier)

/-- `modelFrom`. -/
def Selector.modelFrom (models : List Model) : Option (ViewModel Text) → Option Model
  | some viewModel => models.find? fun model => sel.code model = viewModel.identifier
  | none => none

/-- A new selector whose view is loaded: `init` and `viewIsReady`. -/
def Selector.ready (selectedModel : Option Model) : SelectorScreen Text Model where
  models := []
  selectedItem := selectedModel.map fun model => sel.viewModel model false
  load := .pending
  items := []
  continueEnabled := selectedModel.isSome
  loading := true
  error := none

/-- What happens to the load of a selector. -/
inductive Load (Text Model : Type) where
  | didObtain (models : List Model)
  | didNotObtain (errorText : Text)
  | present
  deriving Repr

/-- `didObtainCountries` and `didNotObtainCountries`, up to the part for the main queue, and that
part. -/
def Selector.load (screen : SelectorScreen Text Model) :
    Load Text Model → Option (SelectorScreen Text Model)
  | .didObtain models =>
    if screen.load = .pending then
      some { screen with
        models := models.insertionSort fun a b => sel.precedes b a = false
        load := .obtained }
    else none
  | .didNotObtain errorText =>
    if screen.load = .pending then some { screen with load := .notObtained errorText } else none
  | .present =>
    match screen.load with
    | .obtained => some { screen with
        load := .finished
        loading := false
        items := sel.showModels screen.models screen.selectedItem }
    | .notObtained errorText => some { screen with
        load := .finished
        loading := false
        error := some errorText }
    | _ => none

/-- `didSelectCountry` and `didSelectCurrency`, without the message to the coordinator. -/
def Selector.didSelect (screen : SelectorScreen Text Model) (model : ViewModel Text) :
    SelectorScreen Text Model :=
  let selectedItem := if screen.selectedItem.map ViewModel.identifier = some model.identifier
    then none else some model
  { screen with
    selectedItem := selectedItem
    continueEnabled := selectedItem.isSome
    items := sel.showModels screen.models selectedItem }

end

/-! ### The coordinator -/

section

variable (Text : Type)

/-- A screen. -/
inductive Screen where
  | languageSelector
  | initial
  | countrySelector (screen : SelectorScreen Text (MarketCountryModel Text))
  | currencySelector (screen : SelectorScreen Text (CurrencyModel Text))

/-- A call of `finishCoordinator`: it passes a contract on, or ends the program. -/
inductive FinishCall where
  | completed (country : MarketCountryModel Text) (currency : CurrencyModel Text)
  | fatalError
  deriving DecidableEq, Repr

/-- The coordinator, and the screens with the one on top first. It holds the two choices and the
calls of `finishCoordinator` that it made. -/
structure Flow where
  stack : List (Screen Text)
  selectedCountry : Option (MarketCountryModel Text)
  selectedCurrency : Option (CurrencyModel Text)
  finishCalls : List (FinishCall Text)

/-- What can happen. -/
inductive Event where
  | continueButtonPress
  | select (row : Nat)
  | back
  | loadCountries (depth : Nat) (load : Load Text (MarketCountryModel Text))
  | loadCurrencies (depth : Nat) (load : Load Text (CurrencyModel Text))
  deriving Repr

variable {Text} [DecidableEq Text] [LT Text] [DecidableLT Text] (interpolate : Text → Text → Text)

/-- `startCoordinator`. -/
def Flow.start : Flow Text := ⟨[.languageSelector], none, none, []⟩

/-- `pushViewController`. -/
def Flow.push (s : Flow Text) (screen : Screen Text) : Flow Text :=
  { s with stack := screen :: s.stack }

/-- `finishCoordinator`: with both choices they are passed on, and without one of them the program
ends. -/
def Flow.finishCoordinator (s : Flow Text) : Flow Text :=
  { s with finishCalls := (match s.selectedCountry, s.selectedCurrency with
      | some country, some currency => .completed country currency
      | _, _ => .fatalError) :: s.finishCalls }

/-- The screen on top handles the continue button. A selector does nothing if its selected item is
not among its models. -/
def Flow.continueButtonPress (s : Flow Text) : Option (Flow Text) :=
  match s.stack with
  | .languageSelector :: _ => some (s.push .initial)
  | .initial :: _ => some (s.push (.countrySelector (countries.ready s.selectedCountry)))
  | .countrySelector screen :: _ =>
    match countries.modelFrom screen.models screen.selectedItem with
    | none => some s
    | some _ =>
      some (s.push (.currencySelector ((currencies interpolate).ready s.selectedCurrency)))
  | .currencySelector screen :: _ =>
    match (currencies interpolate).modelFrom screen.models screen.selectedItem with
    | none => some s
    | some _ => some s.finishCoordinator
  | [] => none

/-- The screen on top handles the selection of a row. A selector tells the coordinator the model of
its selected item. -/
def Flow.select (s : Flow Text) (row : Nat) : Option (Flow Text) :=
  match s.stack with
  | .countrySelector screen :: rest => (screen.items[row]?).map fun item =>
    let screen := countries.didSelect screen item
    { s with
      stack := .countrySelector screen :: rest
      selectedCountry := countries.modelFrom screen.models screen.selectedItem }
  | .currencySelector screen :: rest => (screen.items[row]?).map fun item =>
    let screen := (currencies interpolate).didSelect screen item
    { s with
      stack := .currencySelector screen :: rest
      selectedCurrency := (currencies interpolate).modelFrom screen.models screen.selectedItem }
  | _ => none

/-- The screen on top is popped, unless it is the first one. What was chosen on it stays chosen. -/
def Flow.back (s : Flow Text) : Option (Flow Text) :=
  match s.stack with
  | _ :: below :: rest => some { s with stack := below :: rest }
  | _ => none

/-- A part of the load of a screen. -/
def Screen.loadCountries (load : Load Text (MarketCountryModel Text)) :
    Screen Text → Option (Screen Text)
  | .countrySelector screen => (countries.load screen load).map .countrySelector
  | _ => none

/-- A part of the load of a screen. -/
def Screen.loadCurrencies (load : Load Text (CurrencyModel Text)) :
    Screen Text → Option (Screen Text)
  | .currencySelector screen => ((currencies interpolate).load screen load).map .currencySelector
  | _ => none

/-- The screen at a depth changes. -/
def Flow.atDepth (s : Flow Text) (depth : Nat) (f : Screen Text → Option (Screen Text)) :
    Option (Flow Text) :=
  (s.stack[depth]?).bind fun screen =>
    (f screen).map fun screen => { s with stack := s.stack.set depth screen }

/-- An event. Nothing happens after the program has ended, and an event that no screen takes is not
one of a run. -/
def step (s : Flow Text) (e : Event Text) : Option (Flow Text) :=
  if s.finishCalls.head? matches some .fatalError then none
  else match e with
    | .continueButtonPress => s.continueButtonPress interpolate
    | .select row => s.select interpolate row
    | .back => s.back
    | .loadCountries depth load => s.atDepth depth (Screen.loadCountries load)
    | .loadCurrencies depth load => s.atDepth depth (Screen.loadCurrencies interpolate load)

end

end TSubSpec.FirstStart
