import TSubSpec.FirstStart.Flow

/-!
# `TSubSpec.FirstStart.Choices`: the flow finishes with its choices

The choice of a country is stored in the coordinator, and in the presenter of each selector as the
selected item. `Agrees` says that a selector and the coordinator have the same choice, and
`ValidStack` that this is so for all screens on the stack, and that below the currencies the
country is chosen. Every event preserves this (`Invariant.step`), so the flow finishes only when
both are chosen (`finishes_with_choices`).

A selector takes its models over when they come, and shows them later on the main queue. The
continue button works in between, so a selector that was entered again can go on with its old
choice before it shows any item (`finishes_unmarked`).
-/

set_option autoImplicit false

namespace TSubSpec.FirstStart

open TSubSpec.Lib

/-! ### One selector -/

section

variable {Text Model : Type} [DecidableEq Text] (sel : Selector Text Model)

/-- The selector has the choice of the coordinator, and shows it once its models are loaded. Before
that it shows nothing. -/
structure Agrees (screen : SelectorScreen Text Model) (selected : Option Model) : Prop where
  code_eq : screen.selectedItem.map ViewModel.identifier = selected.map sel.code
  enabled_eq : screen.continueEnabled = screen.selectedItem.isSome
  pending_models : screen.load = .pending → screen.models = []
  notObtained_models : ∀ errorText, screen.load = .notObtained errorText → screen.models = []
  unfinished_items : screen.load ≠ .finished → screen.items = []
  finished_items : screen.load = .finished →
    screen.items = sel.showModels screen.models screen.selectedItem

/-- The selected item is among the models. -/
def Resolved (screen : SelectorScreen Text Model) : Prop :=
  (sel.modelFrom screen.models screen.selectedItem).isSome

/-- The item with the code is the one that is selected: no other is marked on the screen, and it is
marked there once the load has finished. Until then the screen shows no items. -/
structure Marks (screen : SelectorScreen Text Model) (code : Text) : Prop where
  selectedItem_eq : screen.selectedItem.map ViewModel.identifier = some code
  marked_iff : ∀ item ∈ screen.items, item.selected = true ↔ item.identifier = code
  exists_marked : screen.load = .finished → ∃ item ∈ screen.items, item.selected = true
  unfinished_items : screen.load ≠ .finished → screen.items = []

variable {sel} {screen screen' : SelectorScreen Text Model} {selected : Option Model}

/-- A selector that gets its items agrees with the model that was selected, if there is one. -/
theorem agrees_ready (selected : Option Model) : Agrees sel (sel.ready selected) selected where
  code_eq := by
    cases selected with
    | none => rfl
    | some model => rfl
  enabled_eq := by
    cases selected with
    | none => rfl
    | some model => rfl
  pending_models _ := rfl
  notObtained_models _ _ := rfl
  unfinished_items _ := rfl
  finished_items := nofun

/-- A model that `modelFrom` finds. -/
theorem of_modelFrom {models : List Model} {viewModel : Option (ViewModel Text)} {model : Model}
    (h : sel.modelFrom models viewModel = some model) :
    model ∈ models ∧ viewModel.map ViewModel.identifier = some (sel.code model) := by
  cases viewModel with
  | none => cases h
  | some viewModel =>
    have hcode : sel.code model = viewModel.identifier := by simpa using List.find?_some h
    exact ⟨List.mem_of_find?_eq_some h, by rw [hcode]; rfl⟩

/-- An item that is shown comes from a model. -/
theorem mem_showModels {models : List Model} {selectedItem : Option (ViewModel Text)}
    {item : ViewModel Text} (h : item ∈ sel.showModels models selectedItem) : ∃ model ∈ models,
      item =
        sel.viewModel model (some (sel.code model) = selectedItem.map ViewModel.identifier) := by
  obtain ⟨model, hmodel, rfl⟩ := List.mem_map.mp h
  exact ⟨model, hmodel, rfl⟩

/-- What a part of the load can do. -/
theorem load_cases {load : Load Text Model} (h : sel.load screen load = some screen') :
    (screen.load = .pending ∧
      ∃ models, screen' = { screen with models := models, load := .obtained }) ∨
    (screen.load = .pending ∧
      ∃ errorText, screen' = { screen with load := .notObtained errorText }) ∨
    (screen.load = .obtained ∧ screen' = { screen with
      load := .finished
      loading := false
      items := sel.showModels screen.models screen.selectedItem }) ∨
    ∃ errorText, screen.load = .notObtained errorText ∧ screen' = { screen with
      load := .finished
      loading := false
      error := some errorText } := by
  cases load with
  | didObtain models =>
    -- A result of the request counts only while it is pending.
    change (if _ then _ else _) = _ at h
    split at h
    · next hpending => exact Or.inl ⟨hpending, _, (Option.some.inj h).symm⟩
    · cases h
  | didNotObtain errorText =>
    change (if _ then _ else _) = _ at h
    split at h
    · next hpending => exact Or.inr (Or.inl ⟨hpending, _, (Option.some.inj h).symm⟩)
    · cases h
  | present =>
    unfold Selector.load at h
    cases hload : screen.load with
    | obtained =>
      rw [hload] at h
      exact Or.inr (Or.inr (Or.inl ⟨rfl, (Option.some.inj h).symm⟩))
    | notObtained errorText =>
      rw [hload] at h
      exact Or.inr (Or.inr (Or.inr ⟨errorText, rfl, (Option.some.inj h).symm⟩))
    -- Nothing has come yet, or it has been presented, so there is nothing to present.
    | _ =>
      rw [hload] at h
      cases h

/-- The load of a selector does not change its choice. -/
theorem Agrees.load (h : Agrees sel screen selected) {load : Load Text Model}
    (hload : sel.load screen load = some screen') : Agrees sel screen' selected := by
  rcases load_cases hload with ⟨hpending, models, rfl⟩ | ⟨hpending, errorText, rfl⟩ |
    ⟨hobtained, rfl⟩ | ⟨errorText, hnot, rfl⟩
  · exact ⟨h.code_eq, h.enabled_eq, nofun, nofun,
      fun _ => h.unfinished_items (by rw [hpending]; nofun), nofun⟩
  · exact ⟨h.code_eq, h.enabled_eq, nofun, fun _ _ => h.pending_models hpending,
      fun _ => h.unfinished_items (by rw [hpending]; nofun), nofun⟩
  · exact ⟨h.code_eq, h.enabled_eq, nofun, nofun, fun hne => absurd rfl hne, fun _ => rfl⟩
  · have hmodels := h.notObtained_models errorText hnot
    have hitems := h.unfinished_items (by rw [hnot]; nofun)
    refine ⟨h.code_eq, h.enabled_eq, nofun, nofun, fun hne => absurd rfl hne, fun _ => ?_⟩
    show screen.items = sel.showModels screen.models screen.selectedItem
    rw [hitems, hmodels]
    rfl

/-- The load of a selector whose choice is among its models keeps it there. -/
theorem Resolved.load (hagrees : Agrees sel screen selected) (h : Resolved sel screen)
    {load : Load Text Model} (hload : sel.load screen load = some screen') :
    Resolved sel screen' := by
  rcases load_cases hload with ⟨hpending, models, rfl⟩ | ⟨-, errorText, rfl⟩ | ⟨-, rfl⟩ |
    ⟨errorText, -, rfl⟩
  · -- Nothing is among the models before they are loaded.
    obtain ⟨model, hmodel⟩ := Option.isSome_iff_exists.mp h
    have hmem := (of_modelFrom hmodel).1
    rw [hagrees.pending_models hpending] at hmem
    cases hmem
  · exact h
  · exact h
  · exact h

/-- After a selection the coordinator has the choice of the selector. -/
theorem Agrees.didSelect (h : Agrees sel screen selected) {item : ViewModel Text}
    (hitem : item ∈ screen.items) :
    Agrees sel (sel.didSelect screen item) (sel.modelFrom (sel.didSelect screen item).models
      (sel.didSelect screen item).selectedItem) := by
  have hfinished : screen.load = .finished := by
    by_contra hne
    rw [h.unfinished_items hne] at hitem
    cases hitem
  refine ⟨?_, rfl, ?_, ?_, ?_, fun _ => rfl⟩
  · show (if _ then none else some item : Option (ViewModel Text)).map ViewModel.identifier =
      (sel.modelFrom screen.models (if _ then none else some item)).map sel.code
    by_cases hsame : screen.selectedItem.map ViewModel.identifier = some item.identifier
    · rw [if_pos hsame]
      rfl
    · rw [if_neg hsame]
      -- The item that is selected comes from a model.
      rw [h.finished_items hfinished] at hitem
      obtain ⟨model, hmodel, hitem'⟩ := mem_showModels hitem
      have hcode : sel.code model = item.identifier := by rw [hitem']; rfl
      have hfound : (sel.modelFrom screen.models (some item)).isSome :=
        List.find?_isSome.mpr ⟨model, hmodel, by simpa using hcode⟩
      obtain ⟨model', hmodel'⟩ := Option.isSome_iff_exists.mp hfound
      rw [hmodel', (of_modelFrom hmodel').2]
      rfl
  · intro hpending
    exact absurd (hfinished.symm.trans hpending) nofun
  · intro errorText hnot
    exact absurd (hfinished.symm.trans hnot) nofun
  · intro hne
    exact absurd hfinished hne

/-- A selector whose choice is among its models marks it. -/
theorem Agrees.marks (h : Agrees sel screen selected) (hresolved : Resolved sel screen) :
    ∃ model, selected = some model ∧ Marks screen (sel.code model) := by
  obtain ⟨model', hmodel'⟩ := Option.isSome_iff_exists.mp hresolved
  obtain ⟨hmem, hidentifier⟩ := of_modelFrom hmodel'
  cases selected with
  | none => cases hidentifier.symm.trans h.code_eq
  | some model =>
    have hcode : sel.code model' = sel.code model :=
      Option.some.inj (hidentifier.symm.trans h.code_eq)
    refine ⟨model, rfl, h.code_eq, fun item hitem => ?_, fun hfinished => ?_, h.unfinished_items⟩
    · -- Only a load that was presented leaves items.
      have hfinished : screen.load = .finished := by
        by_contra hne
        rw [h.unfinished_items hne] at hitem
        cases hitem
      rw [h.finished_items hfinished] at hitem
      obtain ⟨other, -, rfl⟩ := mem_showModels hitem
      show decide (some (sel.code other) = screen.selectedItem.map ViewModel.identifier) = true ↔
        sel.code other = sel.code model
      rw [h.code_eq, decide_eq_true_iff]
      exact Option.some_inj
    · rw [h.finished_items hfinished]
      refine ⟨_, List.mem_map_of_mem hmem, ?_⟩
      show decide (some (sel.code model') = screen.selectedItem.map ViewModel.identifier) = true
      rw [hidentifier, decide_eq_true_iff]

end

/-! ### The flow -/

section

variable {Text : Type} [DecidableEq Text] [LT Text] [DecidableLT Text]
  {interpolate : Text → Text → Text}

/-- The screens that can be on the stack. The selectors have the choices of the coordinator, and
below the currencies the country is chosen. -/
inductive ValidStack (interpolate : Text → Text → Text) (country : Option (MarketCountryModel Text))
    (currency : Option (CurrencyModel Text)) : List (Screen Text) → Prop
  | languages : ValidStack interpolate country currency [.languageSelector]
  | initial : ValidStack interpolate country currency [.initial, .languageSelector]
  | countries {below : SelectorScreen Text (MarketCountryModel Text)}
      (hbelow : Agrees countries below country) :
      ValidStack interpolate country currency [.countrySelector below, .initial, .languageSelector]
  | currencies {top : SelectorScreen Text (CurrencyModel Text)}
      {below : SelectorScreen Text (MarketCountryModel Text)}
      (hbelow : Agrees countries below country) (hresolved : Resolved countries below)
      (htop : Agrees (currencies interpolate) top currency) :
      ValidStack interpolate country currency
        [.currencySelector top, .countrySelector below, .initial, .languageSelector]

/-- What holds in every state that is reached: every selector on the stack agrees with the choice
that the coordinator holds, and the program has not been ended. -/
structure Invariant (interpolate : Text → Text → Text) (s : Flow Text) : Prop where
  stack : ValidStack interpolate s.selectedCountry s.selectedCurrency s.stack
  running : .fatalError ∉ s.finishCalls

/-- In the step the flow finishes with this country and this currency. They are the choices of the
coordinator, and those that the two selectors mark. -/
structure FinishesWith (interpolate : Text → Text → Text) (s t : Flow Text)
    (country : MarketCountryModel Text) (currency : CurrencyModel Text) : Prop where
  selectedCountry_eq : s.selectedCountry = some country
  selectedCurrency_eq : s.selectedCurrency = some currency
  finishCalls_eq : t.finishCalls = .completed country currency :: s.finishCalls
  marks : ∃ top below rest, s.stack = .currencySelector top :: .countrySelector below :: rest ∧
    Marks below country.code ∧ Marks top currency.code

variable {s t : Flow Text} {country : Option (MarketCountryModel Text)}
  {currency : Option (CurrencyModel Text)} {stack : List (Screen Text)} {e : Event Text}

/-- Nothing is chosen at the start, and no selector is there. -/
theorem invariant_start : Invariant interpolate (Flow.start : Flow Text) :=
  ⟨.languages, nofun⟩

/-- A part of the load of the countries keeps the stack valid. -/
theorem ValidStack.loadCountries (h : ValidStack interpolate country currency stack) {depth : Nat}
    {screen screen' : Screen Text} {load : Load Text (MarketCountryModel Text)}
    (hscreen : stack[depth]? = some screen) (hload : screen.loadCountries load = some screen') :
    ValidStack interpolate country currency (stack.set depth screen') := by
  cases screen with
  | countrySelector below' =>
    obtain ⟨below'', hbelow'', rfl⟩ := Option.map_eq_some_iff.mp hload
    -- The countries are on top of the stack, or below the currencies.
    cases h with
    | languages => match depth with
      | 0 => cases hscreen
    | initial => match depth with
      | 0 => cases hscreen
      | 1 => cases hscreen
    | countries hbelow => match depth with
      | 0 =>
        cases hscreen
        exact .countries (hbelow.load hbelow'')
      | 1 => cases hscreen
      | 2 => cases hscreen
    | currencies hbelow hresolved htop => match depth with
      | 0 => cases hscreen
      | 1 =>
        cases hscreen
        exact .currencies (hbelow.load hbelow'') (hresolved.load hbelow hbelow'') htop
      | 2 => cases hscreen
      | 3 => cases hscreen
  | _ => cases hload

/-- A part of the load of the currencies keeps the stack valid. -/
theorem ValidStack.loadCurrencies (h : ValidStack interpolate country currency stack) {depth : Nat}
    {screen screen' : Screen Text} {load : Load Text (CurrencyModel Text)}
    (hscreen : stack[depth]? = some screen)
    (hload : screen.loadCurrencies interpolate load = some screen') :
    ValidStack interpolate country currency (stack.set depth screen') := by
  cases screen with
  | currencySelector top' =>
    obtain ⟨top'', htop'', rfl⟩ := Option.map_eq_some_iff.mp hload
    -- The currencies are on top of the stack.
    cases h with
    | languages => match depth with
      | 0 => cases hscreen
    | initial => match depth with
      | 0 => cases hscreen
      | 1 => cases hscreen
    | countries hbelow => match depth with
      | 0 => cases hscreen
      | 1 => cases hscreen
      | 2 => cases hscreen
    | currencies hbelow hresolved htop => match depth with
      | 0 =>
        cases hscreen
        exact .currencies hbelow hresolved (htop.load htop'')
      | 1 => cases hscreen
      | 2 => cases hscreen
      | 3 => cases hscreen
  | _ => cases hload

omit [DecidableEq Text] [LT Text] [DecidableLT Text] in
/-- A part of a load changes one screen. -/
theorem Flow.of_atDepth {depth : Nat} {f : Screen Text → Option (Screen Text)}
    (h : s.atDepth depth f = some t) : ∃ screen screen', s.stack[depth]? = some screen ∧
      f screen = some screen' ∧ t = { s with stack := s.stack.set depth screen' } := by
  obtain ⟨screen, hscreen, h⟩ := Option.bind_eq_some_iff.mp h
  obtain ⟨screen', hscreen', rfl⟩ := Option.map_eq_some_iff.mp h
  exact ⟨screen, screen', hscreen, hscreen', rfl⟩

/-- The continue button pushes the next screen, if the choice of the screen on top is among its
models, or finishes the flow. -/
theorem Invariant.continueButtonPress (hs : Invariant interpolate s)
    (h : s.continueButtonPress interpolate = some t) :
    Invariant interpolate t ∧ (t.finishCalls = s.finishCalls ∨
      ∃ country currency, FinishesWith interpolate s t country currency) := by
  obtain ⟨stack, country, currency, finishCalls⟩ := s
  obtain ⟨hstack, hrunning⟩ := hs
  dsimp only at hstack hrunning
  unfold Flow.continueButtonPress at h
  cases hstack with
  | languages =>
    cases h
    exact ⟨⟨.initial, hrunning⟩, .inl rfl⟩
  | initial =>
    cases h
    exact ⟨⟨.countries (agrees_ready _), hrunning⟩, .inl rfl⟩
  | countries hbelow =>
    dsimp only at h
    split at h
    · cases h
      exact ⟨⟨.countries hbelow, hrunning⟩, .inl rfl⟩
    · next model hmodel =>
      cases h
      have hresolved : Resolved countries _ := Option.isSome_iff_exists.mpr ⟨model, hmodel⟩
      exact ⟨⟨.currencies hbelow hresolved (agrees_ready _), hrunning⟩, .inl rfl⟩
  | currencies hbelow hresolved htop =>
    dsimp only at h
    split at h
    · cases h
      exact ⟨⟨.currencies hbelow hresolved htop, hrunning⟩, .inl rfl⟩
    · next model hmodel =>
      cases h
      -- Both selectors have a choice among their models, and the coordinator has the same.
      obtain ⟨chosenCountry, rfl, hmarks⟩ := hbelow.marks hresolved
      obtain ⟨chosenCurrency, rfl, hmarks'⟩ :=
        htop.marks (Option.isSome_iff_exists.mpr ⟨model, hmodel⟩)
      refine ⟨⟨.currencies hbelow hresolved htop, ?_⟩,
        .inr ⟨chosenCountry, chosenCurrency, rfl, rfl,
        rfl, _, _, _, rfl, hmarks, hmarks'⟩⟩
      intro hmem
      rcases List.mem_cons.mp hmem with heq | hmem
      · cases heq
      · exact hrunning hmem

/-- A selection changes the choice of the screen on top and that of the coordinator. -/
theorem Invariant.select (hs : Invariant interpolate s) {row : Nat}
    (h : s.select interpolate row = some t) :
    Invariant interpolate t ∧ t.finishCalls = s.finishCalls := by
  obtain ⟨stack, country, currency, finishCalls⟩ := s
  obtain ⟨hstack, hrunning⟩ := hs
  dsimp only at hstack hrunning
  unfold Flow.select at h
  cases hstack with
  | languages => cases h
  | initial => cases h
  | countries hbelow =>
    obtain ⟨item, hitem, rfl⟩ := Option.map_eq_some_iff.mp h
    exact ⟨⟨.countries (hbelow.didSelect (List.mem_of_getElem? hitem)), hrunning⟩, rfl⟩
  | currencies hbelow hresolved htop =>
    obtain ⟨item, hitem, rfl⟩ := Option.map_eq_some_iff.mp h
    have htop' := htop.didSelect (List.mem_of_getElem? hitem)
    exact ⟨⟨.currencies hbelow hresolved htop', hrunning⟩, rfl⟩

/-- Going back keeps the choices. -/
theorem Invariant.back (hs : Invariant interpolate s) (h : s.back = some t) :
    Invariant interpolate t ∧ t.finishCalls = s.finishCalls := by
  obtain ⟨stack, country, currency, finishCalls⟩ := s
  obtain ⟨hstack, hrunning⟩ := hs
  dsimp only at hstack hrunning
  unfold Flow.back at h
  cases hstack with
  | languages => cases h
  | initial =>
    cases h
    exact ⟨⟨.languages, hrunning⟩, rfl⟩
  | countries hbelow =>
    cases h
    exact ⟨⟨.initial, hrunning⟩, rfl⟩
  | currencies hbelow hresolved htop =>
    cases h
    exact ⟨⟨.countries hbelow, hrunning⟩, rfl⟩

/-- Every event preserves the invariant, and the flow finishes with its choices or does not
finish. -/
theorem Invariant.step (hs : Invariant interpolate s) (hstep : step interpolate s e = some t) :
    Invariant interpolate t ∧ (t.finishCalls = s.finishCalls ∨
      ∃ country currency, FinishesWith interpolate s t country currency) := by
  unfold FirstStart.step at hstep
  split at hstep
  · cases hstep
  · cases e with
    | continueButtonPress => exact hs.continueButtonPress hstep
    | select row =>
      obtain ⟨hinv, hcalls⟩ := hs.select hstep
      exact ⟨hinv, .inl hcalls⟩
    | back =>
      obtain ⟨hinv, hcalls⟩ := hs.back hstep
      exact ⟨hinv, .inl hcalls⟩
    | loadCountries depth load =>
      obtain ⟨screen, screen', hscreen, hload, rfl⟩ := Flow.of_atDepth hstep
      exact ⟨⟨hs.stack.loadCountries hscreen hload, hs.running⟩, .inl rfl⟩
    | loadCurrencies depth load =>
      obtain ⟨screen, screen', hscreen, hload, rfl⟩ := Flow.of_atDepth hstep
      exact ⟨⟨hs.stack.loadCurrencies hscreen hload, hs.running⟩, .inl rfl⟩

end

/-- For every sequence of events: when `finishCoordinator` is called, the country and the currency
are both chosen, and they are the selected items of the two selectors, which mark them as soon as
they show their items. It never ends the program. A selector that was left before its items were
shown has nothing to mark. -/
theorem finishes_with_choices {Text : Type} [DecidableEq Text] [LT Text] [DecidableLT Text]
    {interpolate : Text → Text → Text} {s t : Flow Text} {e : Event Text}
    (hs : Steps (step interpolate) (fun _ _ => True) .start s)
    (hstep : step interpolate s e = some t) :
    (t.finishCalls = s.finishCalls ∨
      ∃ country currency, FinishesWith interpolate s t country currency) ∧
    .fatalError ∉ t.finishCalls := by
  have hinv := hs.invariant (I := Invariant interpolate) invariant_start
    fun s e t hs _ hstep => (hs.step hstep).1
  obtain ⟨hinv', hfinish⟩ := hinv.step hstep
  exact ⟨hfinish, hinv'.running⟩

/-- The title of a currency. -/
def exampleTitle (code symbol : String) : String := code ++ " (" ++ symbol ++ ")"

/-- A country and a currency. -/
def germany : MarketCountryModel String := ⟨"DE", "Germany"⟩
/-- A currency for the runs below. -/
def euro : CurrencyModel String := ⟨"EUR", "\u20ac", "1.234,56"⟩

/-- The country and the currency are chosen, and the choice of the country is made twice. -/
def exampleEvents : List (Event String) :=
  [.continueButtonPress, .continueButtonPress, .loadCountries 0 (.didObtain [germany]),
    .loadCountries 0 .present, .select 0, .back, .continueButtonPress,
    .loadCountries 0 (.didObtain [germany]), .loadCountries 0 .present, .continueButtonPress,
    .loadCurrencies 0 (.didObtain [euro]), .loadCurrencies 0 .present, .select 0]

/-- A run that chooses a country and a currency, and finishes with both. -/
theorem finishes_with_choices_euro : ∃ s t : Flow String,
    t.finishCalls = [.completed germany euro] ∧ ((t.finishCalls = s.finishCalls ∨
      ∃ country currency, FinishesWith exampleTitle s t country currency) ∧
    .fatalError ∉ t.finishCalls) := by
  have hrun : ((runActions (guarded (step exampleTitle) fun _ _ => true) Flow.start
      exampleEvents).bind fun s => (step exampleTitle s .continueButtonPress).map fun t =>
        t.finishCalls) = some [.completed germany euro] := by decide +kernel
  obtain ⟨s, hs, hstep⟩ := Option.bind_eq_some_iff.mp hrun
  obtain ⟨t, hstep, hcalls⟩ := Option.map_eq_some_iff.mp hstep
  have hsteps : Steps (step exampleTitle) (fun _ _ => True) .start s :=
    steps_of_runActions (fun _ _ _ => trivial) hs
  exact ⟨s, t, hcalls, finishes_with_choices hsteps hstep⟩

/-- Both are chosen, the user goes back to the welcome and enters the two selectors again, and the
results of their loads are taken over but not shown yet. -/
def reentryEvents : List (Event String) :=
  [.continueButtonPress, .continueButtonPress, .loadCountries 0 (.didObtain [germany]),
    .loadCountries 0 .present, .select 0, .continueButtonPress,
    .loadCurrencies 0 (.didObtain [euro]), .loadCurrencies 0 .present, .select 0, .back, .back,
    .continueButtonPress, .loadCountries 0 (.didObtain [germany]), .continueButtonPress,
    .loadCurrencies 0 (.didObtain [euro])]

/-- The two selectors are on the stack, and show no items. -/
def Flow.showsNothing (s : Flow String) : Bool :=
  match s.stack with
  | .currencySelector top :: .countrySelector below :: _ => top.items.isEmpty && below.items.isEmpty
  | _ => false

/-- The flow finishes while neither selector marks an item. -/
theorem finishes_unmarked : ∃ s t : Flow String,
    Steps (step exampleTitle) (fun _ _ => True) .start s ∧
      step exampleTitle s .continueButtonPress = some t ∧
      t.finishCalls = .completed germany euro :: s.finishCalls ∧
      ∃ top below rest, s.stack = .currencySelector top :: .countrySelector below :: rest ∧
        top.items = [] ∧ below.items = [] := by
  have hrun : ((runActions (guarded (step exampleTitle) fun _ _ => true) Flow.start
      reentryEvents).bind fun s => (step exampleTitle s .continueButtonPress).map fun t =>
        (s.finishCalls, s.showsNothing, t.finishCalls)) =
          some ([], true, [.completed germany euro]) := by decide +kernel
  obtain ⟨s, hs, hstep⟩ := Option.bind_eq_some_iff.mp hrun
  obtain ⟨t, hstep, hresult⟩ := Option.map_eq_some_iff.mp hstep
  obtain ⟨hbefore, hshown, hafter⟩ : s.finishCalls = [] ∧ s.showsNothing = true ∧
      t.finishCalls = [.completed germany euro] := by simpa using hresult
  refine ⟨s, t, steps_of_runActions (fun _ _ _ => trivial) hs, hstep, ?_, ?_⟩
  · rw [hbefore, hafter]
  · unfold Flow.showsNothing at hshown
    split at hshown
    · next top below rest hstack =>
      rw [Bool.and_eq_true, List.isEmpty_iff, List.isEmpty_iff] at hshown
      exact ⟨top, below, rest, hstack, hshown.1, hshown.2⟩
    · cases hshown

end TSubSpec.FirstStart
