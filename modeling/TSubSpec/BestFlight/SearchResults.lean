import Mathlib.Data.List.Forall2
import TSubSpec.FirstStart.Flow
import TSubSpec.Lib.Dict

/-!
# `TSubSpec.BestFlight.SearchResults`: the quotes of a search

A response has quotes, places and carriers, which refer to each other by identifiers.
`didObtainQuotes` makes a dictionary of the places and one of the carriers, and joins every quote
with what it refers to. A quote without its places is left out, and so is a missing carrier. The
view changes later, on the main queue.

`Dictionary(uniqueKeysWithValues:)` ends the program if a key comes twice, and nothing that is
decoded before forbids that. `showsResolvable_iff` says that this is all that can go wrong: with
identifiers that are different, the items are those of the resolvable quotes, in order.

Left out: the texts of the cells, which are made from the items, and the request.
-/

set_option autoImplicit false

namespace TSubSpec.BestFlight

open TSubSpec.Lib TSubSpec.Lib.Dict
open TSubSpec.FirstStart (CurrencyModel)

/-! ### Models -/

/-- `QuotePlaceType`. -/
inductive QuotePlaceType where
  | station
  | country
  deriving DecidableEq, Repr

section

variable (Text : Type)

/-- `QuotePlaceModel`. -/
structure QuotePlaceModel where
  name : Text
  type : QuotePlaceType
  placeId : Int
  skyscannerCode : Text
  iataCode : Option Text
  cityName : Option Text
  cityId : Option Text
  countryName : Option Text
  deriving DecidableEq, Repr

/-- `QuoteCarrierModel`. -/
structure QuoteCarrierModel where
  carrierId : Int
  name : Text
  deriving DecidableEq, Repr

/-- `OutboundLegModel`. -/
structure OutboundLegModel where
  carrierIds : List Int
  originId : Int
  destinationId : Int
  departureDate : Text
  deriving DecidableEq, Repr

/-- `QuotePriceModel`. -/
structure QuotePriceModel where
  quoteId : Int
  minPrice : Int
  direct : Bool
  outboundLeg : OutboundLegModel Text
  deriving DecidableEq, Repr

/-- `QuotesResponseModel`. -/
structure QuotesResponseModel where
  quotes : List (QuotePriceModel Text)
  places : List (QuotePlaceModel Text)
  carriers : List (QuoteCarrierModel Text)
  deriving DecidableEq, Repr

/-- `QuoteViewModel`. -/
structure QuoteViewModel where
  quote : QuotePriceModel Text
  sourcePlace : QuotePlaceModel Text
  targetPlace : QuotePlaceModel Text
  carriers : List (QuoteCarrierModel Text)
  currency : CurrencyModel Text
  deriving DecidableEq, Repr

/-- `NetworkError`. -/
inductive NetworkError where
  | invalidRequest
  | invalidParameters (description : Text)
  | emptyData
  | failedDataDecoding (description : Text)
  | custom (code : Int) (message : Text)
  deriving DecidableEq, Repr

/-- The texts of an alert. -/
structure ErrorAlert where
  title : Text
  text : Text
  actionText : Text
  deriving DecidableEq, Repr

/-- The view: its loader, its items and the alert on it. This is what a user sees of a response. -/
structure SearchResultsView where
  loading : Bool
  items : List (QuoteViewModel Text)
  error : Option (ErrorAlert Text)
  deriving DecidableEq, Repr

/-- A block for the main queue. -/
inductive SearchResultsBlock where
  | showItems (items : List (QuoteViewModel Text))
  | handleError (error : NetworkError Text)
  deriving DecidableEq, Repr

/-- The texts of `FlightSearchResultsTextManager` for an error. -/
structure ErrorTexts where
  errorTitleText : Text
  defaultErrorText : Text
  okText : Text
  deriving DecidableEq, Repr

end

/-! ### The presenter -/

section

variable {Text : Type}

/-- `viewIsReady`, as far as the view is concerned. -/
def SearchResultsView.viewIsReady (view : SearchResultsView Text) : SearchResultsView Text :=
  { view with loading := true }

/-- `handleError`. -/
def SearchResultsView.handleError (textManager : ErrorTexts Text) (view : SearchResultsView Text)
    (error : NetworkError Text) : SearchResultsView Text :=
  let errorText := match error with
    | .custom _ message => message
    | .emptyData | .failedDataDecoding _ | .invalidParameters _ | .invalidRequest =>
      textManager.defaultErrorText
  { view with error := some ⟨textManager.errorTitleText, errorText, textManager.okText⟩ }

/-- A block is run. -/
def SearchResultsBlock.run (textManager : ErrorTexts Text) (view : SearchResultsView Text) :
    SearchResultsBlock Text → SearchResultsView Text
  | .showItems items => { view with loading := false, items := items }
  | .handleError error => { view with loading := false }.handleError textManager error

/-- The view model of a quote, if its places are there. -/
def quoteViewModel (places : Dict Int (QuotePlaceModel Text))
    (carriers : Dict Int (QuoteCarrierModel Text)) (currency : CurrencyModel Text)
    (quote : QuotePriceModel Text) : Option (QuoteViewModel Text) :=
  match places.lookup quote.outboundLeg.originId,
    places.lookup quote.outboundLeg.destinationId with
  | some sourcePlace, some destinationPlace =>
    -- A carrier that is not among the carriers of the response is dropped.
    let targetCarriers := quote.outboundLeg.carrierIds.filterMap (carriers.lookup ·)
    some ⟨quote, sourcePlace, destinationPlace, targetCarriers, currency⟩
  -- The `guard` fails, and the quote is left out.
  | _, _ => none

/-- `didObtainQuotes`: the block that is dispatched. `none` is a trap: a dictionary is made with
keys that must be unique. -/
def didObtainQuotes (currency : CurrencyModel Text) (model : QuotesResponseModel Text) :
    Option (SearchResultsBlock Text) := do
  let places ← uniqueKeysWithValues (keyedBy QuotePlaceModel.placeId model.places)
  let carriers ← uniqueKeysWithValues (keyedBy QuoteCarrierModel.carrierId model.carriers)
  let viewModels := model.quotes.filterMap (quoteViewModel places carriers currency)
  pure (.showItems viewModels)

/-- `didNotObtainQuotes`. -/
def didNotObtainQuotes (error : NetworkError Text) : SearchResultsBlock Text := .handleError error

/-! ### What is shown -/

/-- The places of a quote are in the response. Its carriers need not be. -/
def Resolvable (model : QuotesResponseModel Text) (quote : QuotePriceModel Text) : Bool :=
  quote.outboundLeg.originId ∈ model.places.map QuotePlaceModel.placeId &&
    quote.outboundLeg.destinationId ∈ model.places.map QuotePlaceModel.placeId

/-- The item of a quote: it is joined with places and carriers of the response, by their
identifiers. -/
structure IsItem (currency : CurrencyModel Text) (model : QuotesResponseModel Text)
    (quote : QuotePriceModel Text) (item : QuoteViewModel Text) : Prop where
  quote_eq : item.quote = quote
  currency_eq : item.currency = currency
  sourcePlace_mem : item.sourcePlace ∈ model.places
  sourcePlace_id : item.sourcePlace.placeId = quote.outboundLeg.originId
  targetPlace_mem : item.targetPlace ∈ model.places
  targetPlace_id : item.targetPlace.placeId = quote.outboundLeg.destinationId
  carriers_mem : ∀ carrier ∈ item.carriers, carrier ∈ model.carriers
  carriers_ids : item.carriers.map QuoteCarrierModel.carrierId =
    quote.outboundLeg.carrierIds.filter (· ∈ model.carriers.map QuoteCarrierModel.carrierId)

/-- The response is taken, and when the block was run the view has one item for each resolvable
quote, in order, and no other. -/
def ShowsResolvable (textManager : ErrorTexts Text) (currency : CurrencyModel Text)
    (model : QuotesResponseModel Text) : Prop :=
  ∃ block, didObtainQuotes currency model = some block ∧ ∀ view,
    List.Forall₂ (IsItem currency model) (model.quotes.filter (Resolvable model))
      (block.run textManager view).items

variable {textManager : ErrorTexts Text} {currency : CurrencyModel Text}
  {model : QuotesResponseModel Text} {places : Dict Int (QuotePlaceModel Text)}
  {carriers : Dict Int (QuoteCarrierModel Text)} {quote : QuotePriceModel Text}
  {item : QuoteViewModel Text}

/-- The items of a mapping that drops what is not kept by a filter. -/
theorem forall₂_filter_filterMap {α β : Type} {R : α → β → Prop} {p : α → Bool} {f : α → Option β}
    (hsome : ∀ a b, f a = some b → R a b) (hp : ∀ a, (f a).isSome = p a) (as : List α) :
    List.Forall₂ R (as.filter p) (as.filterMap f) := by
  induction as with
  | nil => exact .nil
  | cons a as ih =>
    rw [List.filter_cons, ← hp]
    cases hfa : f a with
    | none =>
      rw [List.filterMap_cons_none hfa]
      exact ih
    | some b =>
      rw [List.filterMap_cons_some hfa]
      exact .cons (hsome a b hfa) ih

section

variable (hplaces : uniqueKeysWithValues (keyedBy QuotePlaceModel.placeId model.places) =
    some places)
  (hcarriers : uniqueKeysWithValues (keyedBy QuoteCarrierModel.carrierId model.carriers) =
    some carriers)

include hplaces

/-- A quote has a view model if it is resolvable. -/
theorem isSome_quoteViewModel (quote : QuotePriceModel Text) :
    (quoteViewModel places carriers currency quote).isSome = Resolvable model quote := by
  rw [Resolvable, ← isSome_lookup_keyedBy hplaces, ← isSome_lookup_keyedBy hplaces, quoteViewModel]
  -- The guard needs both places.
  cases places.lookup quote.outboundLeg.originId <;>
    cases places.lookup quote.outboundLeg.destinationId <;> rfl

include hcarriers

/-- The view model of a quote is its item. -/
theorem isItem_quoteViewModel
    (h : quoteViewModel places carriers currency quote = some item) :
    IsItem currency model quote item := by
  unfold quoteViewModel at h
  split at h
  next sourcePlace targetPlace hsource htarget =>
    obtain rfl := Option.some.inj h
    obtain ⟨hsource_mem, hsource_id⟩ := (lookup_keyedBy_iff hplaces).mp hsource
    obtain ⟨htarget_mem, htarget_id⟩ := (lookup_keyedBy_iff hplaces).mp htarget
    refine ⟨rfl, rfl, hsource_mem, hsource_id, htarget_mem, htarget_id, ?_,
      map_key_filterMap_lookup hcarriers _⟩
    -- A carrier of the item was looked up, so it is one of the response.
    intro carrier hcarrier
    obtain ⟨id, _, hlookup⟩ := List.mem_filterMap.mp hcarrier
    exact ((lookup_keyedBy_iff hcarriers).mp hlookup).1
  next => cases h

/-- If both dictionaries can be made, the response is shown. -/
theorem showsResolvable_of_unique : ShowsResolvable textManager currency model := by
  refine ⟨.showItems (model.quotes.filterMap (quoteViewModel places carriers currency)), ?_, ?_⟩
  · rw [didObtainQuotes, hplaces, hcarriers]
    rfl
  · intro view
    exact forall₂_filter_filterMap (fun _ _ => isItem_quoteViewModel hplaces hcarriers)
      (isSome_quoteViewModel hplaces) _

end

/-- A response is taken if the identifiers of its places are different, and those of its
carriers. -/
theorem exists_didObtainQuotes (h : ∃ block, didObtainQuotes currency model = some block) :
    (∃ places, uniqueKeysWithValues (keyedBy QuotePlaceModel.placeId model.places) = some places) ∧
      ∃ carriers, uniqueKeysWithValues (keyedBy QuoteCarrierModel.carrierId model.carriers) =
        some carriers := by
  obtain ⟨block, h⟩ := h
  obtain ⟨places, hplaces, h⟩ := Option.bind_eq_some_iff.mp h
  obtain ⟨carriers, hcarriers, _⟩ := Option.bind_eq_some_iff.mp h
  exact ⟨⟨places, hplaces⟩, carriers, hcarriers⟩

/-- A response is shown, each resolvable quote once, if and only if the identifiers of its places
are different, and so are those of its carriers. The dictionaries are made with unique keys, and a
key that comes twice ends the program. -/
theorem showsResolvable_iff (textManager : ErrorTexts Text) (currency : CurrencyModel Text)
    (model : QuotesResponseModel Text) :
    ShowsResolvable textManager currency model ↔
      (model.places.map QuotePlaceModel.placeId).Nodup ∧
        (model.carriers.map QuoteCarrierModel.carrierId).Nodup := by
  rw [← keys_keyedBy QuotePlaceModel.placeId, ← keys_keyedBy QuoteCarrierModel.carrierId,
    ← exists_uniqueKeys_iff, ← exists_uniqueKeys_iff]
  constructor
  · -- Only the dictionaries can trap, and both are made before anything else.
    rintro ⟨block, hblock, _⟩
    exact exists_didObtainQuotes ⟨block, hblock⟩
  · rintro ⟨⟨places, hplaces⟩, carriers, hcarriers⟩
    exact showsResolvable_of_unique hplaces hcarriers

end

/-- A place that comes twice in a response. -/
def exampleResponse : QuotesResponseModel String where
  quotes := [⟨1, 120, true, ⟨[7], 1, 2, "2020-01-01T00:00:00"⟩⟩]
  places := [⟨"Berlin", .country, 1, "BERL", none, none, none, none⟩,
    ⟨"Paris", .country, 2, "PARI", none, none, none, none⟩,
    ⟨"Berlin", .country, 1, "BERL", none, none, none, none⟩]
  carriers := [⟨7, "easyJet"⟩]

theorem not_showsResolvable_repeated :
    ¬ ∀ (textManager : ErrorTexts String) (currency : CurrencyModel String)
      (model : QuotesResponseModel String), ShowsResolvable textManager currency model := by
  intro hall
  obtain ⟨block, hblock, _⟩ := hall ⟨"Error", "Error", "OK"⟩ ⟨"EUR", "\u20ac", "1.234,56"⟩
    exampleResponse
  have hnone : didObtainQuotes ⟨"EUR", "\u20ac", "1.234,56"⟩ exampleResponse = none := by decide
  cases hnone.symm.trans hblock

end TSubSpec.BestFlight
