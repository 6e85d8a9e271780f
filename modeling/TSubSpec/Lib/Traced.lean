import Mathlib.Data.List.Basic

/-!
# `TSubSpec.Lib.Traced`: programs that log and may fail

`Traced ε ω α` is the outcome of a program: a value of type `α` or a failure of type
`ε`, together with the events of type `ω` it emitted, oldest first. The log survives a
failure, so a property of every event covers the runs that fail as well.

These notions are built on it, each with its rules for how programs are put together:

* `Traced.FailsIn`: the failures a program can end in.
* `Traced.Emits`: every event of a program satisfies a predicate.
* `Traced.Simulates`: two programs run in lockstep. Both succeed with related values or
  both fail in the same way, the second log is a projection of the first, and every
  event of the first satisfies a predicate.
* `Traced.Approx`: the flat order of fuel-indexed interpreters. A program that ran out
  of fuel is below every program whose log extends its own.
* `Traced.Halts` and `Traced.Terminates`: a fuel-indexed family is not out of fuel from some
  fuel on, always or provided that its events satisfy a predicate. For a family that grows in
  `Approx`, every larger fuel then gives the same outcome.
-/

set_option autoImplicit false

namespace TSubSpec.Lib

/-- The outcome of a program that logs events of type `ω` and may fail with an `ε`. The events are
there also when it fails. -/
structure Traced (ε ω α : Type) where
  result : Except ε α
  log : List ω

namespace Traced

variable {ε ω ω' α β γ : Type}

/-- The program that returns `a` and logs nothing. -/
protected def pure (a : α) : Traced ε ω α := ⟨.ok a, []⟩

/-- Runs `x`, and then `f` on its value. A failure of `x` skips `f`, and the events of `x` stay. -/
protected def bind (x : Traced ε ω α) (f : α → Traced ε ω β) : Traced ε ω β :=
  match x.result with
  | .ok a => ⟨(f a).result, x.log ++ (f a).log⟩
  | .error e => ⟨.error e, x.log⟩

instance : Monad (Traced ε ω) where
  pure := Traced.pure
  bind := Traced.bind

/-- The program that logs the event `w`. -/
def emit (w : ω) : Traced ε ω Unit := ⟨.ok (), [w]⟩

/-- The program that fails with `e`. -/
def raise (e : ε) : Traced ε ω α := ⟨.error e, []⟩

/-- A program that succeeds hands its value on and prefixes its log. -/
theorem bind_ok {a : α} {l : List ω} (f : α → Traced ε ω β) :
    ((⟨.ok a, l⟩ : Traced ε ω α) >>= f) = ⟨(f a).result, l ++ (f a).log⟩ := rfl

/-- A program that fails skips the rest. -/
theorem bind_error {e : ε} {l : List ω} (f : α → Traced ε ω β) :
    ((⟨.error e, l⟩ : Traced ε ω α) >>= f) = ⟨.error e, l⟩ := rfl

/-- A program goes on behind a part that returned. The log of the part stays in front. -/
theorem bind_of_ok {x : Traced ε ω α} {a : α} (f : α → Traced ε ω β)
    (h : x.result = .ok a) : x >>= f = ⟨(f a).result, x.log ++ (f a).log⟩ := by
  rw [← bind_ok, ← h]

/-- A program ends where a part has failed, with the log up to there. -/
theorem bind_of_error {x : Traced ε ω α} {e : ε} (f : α → Traced ε ω β)
    (h : x.result = .error e) : x >>= f = ⟨.error e, x.log⟩ := by
  rw [← bind_error f, ← h]

/-- Nothing is done behind a failure. -/
@[simp] theorem raise_bind (e : ε) (f : α → Traced ε ω β) :
    ((raise e : Traced ε ω α) >>= f) = raise e := rfl

/-- The program that returns a value returns it, and the one that fails fails. These equations are
in the simp set, so that the proofs compute with results and logs. -/
@[simp] theorem result_pure (a : α) : (pure a : Traced ε ω α).result = .ok a := rfl

/-- A program that only returns a value logs nothing. -/
@[simp] theorem log_pure (a : α) : (pure a : Traced ε ω α).log = [] := rfl

/-- A program that fails has the failure as its result. -/
@[simp] theorem result_raise (e : ε) : (raise e : Traced ε ω α).result = .error e := rfl

/-- A program that only fails logs nothing. -/
@[simp] theorem log_raise (e : ε) : (raise e : Traced ε ω α).log = [] := rfl

/-- To log an event is no failure. -/
@[simp] theorem result_emit (w : ω) : (emit w : Traced ε ω Unit).result = .ok () := rfl

/-- An event is logged once. -/
@[simp] theorem log_emit (w : ω) : (emit w : Traced ε ω Unit).log = [w] := rfl

instance : LawfulMonad (Traced ε ω) :=
  LawfulMonad.mk' _
    (fun x => by
      obtain ⟨r, l⟩ := x
      cases r with
      | ok a => exact congrArg (Traced.mk _) (List.append_nil l)
      | error e => rfl)
    (fun a f => rfl)
    (fun x f g => by
      obtain ⟨r, l⟩ := x
      cases r with
      | error e => rfl
      | ok a =>
        show ((⟨(f a).result, l ++ (f a).log⟩ : Traced ε ω _) >>= g)
          = ⟨(f a >>= g).result, l ++ (f a >>= g).log⟩
        generalize f a = y
        obtain ⟨r', l'⟩ := y
        cases r' with
        | ok b => simp only [bind_ok, List.append_assoc]
        | error e => rfl)

/-- A sequence returns `b` exactly when its first part returns some value from which the
rest returns `b`. -/
theorem bind_result_ok {x : Traced ε ω α} {f : α → Traced ε ω β} {b : β} :
    (x >>= f).result = .ok b ↔ ∃ a, x.result = .ok a ∧ (f a).result = .ok b := by
  obtain ⟨r, l⟩ := x
  cases r with
  | ok a => simp [bind_ok]
  | error e => simp [bind_error]

/-- An event of a sequence comes from its first part, or from the rest after the first
part returned. -/
theorem mem_bind_log {x : Traced ε ω α} {f : α → Traced ε ω β} {w : ω} :
    w ∈ (x >>= f).log ↔ w ∈ x.log ∨ ∃ a, x.result = .ok a ∧ w ∈ (f a).log := by
  obtain ⟨r, l⟩ := x
  cases r with
  | ok a => simp [bind_ok]
  | error e => simp [bind_error]

/-! ### Failures -/

/-- How a program failed can be tested, whatever it would have returned. -/
instance [DecidableEq ε] (r : Except ε α) (e : ε) : Decidable (r = .error e) :=
  match r with
  | .ok _ => isFalse (by rintro ⟨⟩)
  | .error e' => decidable_of_iff (e' = e) ⟨congrArg _, Except.error.inj⟩

/-- Every failure of `x` satisfies `P`. -/
def FailsIn (P : ε → Prop) (x : Traced ε ω α) : Prop := ∀ e, x.result = .error e → P e

/-- A program that only returns a value does not fail at all. -/
theorem FailsIn.pure (P : ε → Prop) (a : α) : FailsIn P (pure a : Traced ε ω α) := by
  intro e h
  cases h

/-- To log an event is no failure, so it satisfies every condition on failures. -/
theorem FailsIn.emit (P : ε → Prop) (w : ω) : FailsIn P (emit w : Traced ε ω Unit) := by
  intro e h
  cases h

/-- A failure satisfies what is said of it. -/
theorem FailsIn.raise {P : ε → Prop} {e : ε} (h : P e) :
    FailsIn P (raise e : Traced ε ω α) := by
  rintro e' he
  cases he
  exact h

/-- The failures of two parts are those of each. The second part is looked at for values that the
first one returns only. -/
theorem FailsIn.bind {P : ε → Prop} {x : Traced ε ω α} {f : α → Traced ε ω β}
    (hx : FailsIn P x) (hf : ∀ a, x.result = .ok a → FailsIn P (f a)) :
    FailsIn P (x >>= f) := by
  intro e h
  cases hr : x.result with
  | ok a =>
    rw [bind_of_ok f hr] at h
    exact hf a hr e h
  | error e' =>
    rw [bind_of_error f hr] at h
    cases h
    exact hx e hr

/-- Whether a program returned can be tested, whatever it returned. -/
theorem exists_ok {r : Except ε α} (h : r.toOption.isSome = true) : ∃ a, r = .ok a := by
  cases r with
  | ok a => exact ⟨a, rfl⟩
  | error e => cases h

/-! ### Logs -/

/-- Every event of `x` satisfies `P`. -/
def Emits (P : ω → Prop) (x : Traced ε ω α) : Prop := ∀ w ∈ x.log, P w

/-- A program that only returns a value logs nothing, so all of its events are as required. -/
theorem Emits.pure (P : ω → Prop) (a : α) : Emits P (pure a : Traced ε ω α) := by
  intro w hw
  cases hw

/-- The events of two parts are those of each. The second part is looked at for values that the
first one returns only. -/
theorem Emits.bind {P : ω → Prop} {x : Traced ε ω α} {f : α → Traced ε ω β} (hx : Emits P x)
    (hf : ∀ a, x.result = .ok a → Emits P (f a)) : Emits P (x >>= f) := by
  intro w hw
  rcases mem_bind_log.mp hw with hw | ⟨a, ha, hw⟩
  · exact hx w hw
  · exact hf a ha w hw

/-- A weaker condition on the events holds too. -/
theorem Emits.mono {P Q : ω → Prop} {x : Traced ε ω α} (hx : Emits P x) (hPQ : ∀ w, P w → Q w) :
    Emits Q x :=
  fun w hw => hPQ w (hx w hw)

/-! ### Lockstep simulation -/

/-- `x` and `y` run in lockstep: both return, with values related by `R`, or both fail in
the same way. The events of `y` are the ones `proj` selects from `x`, and every event of
`x` satisfies `E`. -/
structure Simulates (proj : ω → Option ω') (E : ω → Prop) (R : α → β → Prop)
    (x : Traced ε ω α) (y : Traced ε ω' β) : Prop where
  result : match x.result, y.result with
    | .ok a, .ok b => R a b
    | .error e, .error e' => e = e'
    | _, _ => False
  log : x.log.filterMap proj = y.log
  events : ∀ w ∈ x.log, E w

section Simulates

variable {proj : ω → Option ω'} {E : ω → Prop}

/-- Two programs that return related values run in lockstep. -/
theorem Simulates.pure {R : α → β → Prop} {a : α} {b : β} (h : R a b) :
    Simulates (ε := ε) proj E R (pure a) (pure b) where
  result := h
  log := rfl
  events := by simp

/-- Two programs that fail in the same way run in lockstep. -/
theorem Simulates.raise {R : α → β → Prop} (e : ε) :
    Simulates proj E R (raise e) (raise e) where
  result := rfl
  log := rfl
  events := by simp

/-- Lockstep with a relation of the values is lockstep with a weaker one. -/
theorem Simulates.mono {R S : α → β → Prop} {x : Traced ε ω α} {y : Traced ε ω' β}
    (h : Simulates proj E R x y) (hRS : ∀ a b, R a b → S a b) : Simulates proj E S x y where
  result := by
    have hr := h.result
    split at hr
    · exact hRS _ _ hr
    · exact hr
    · exact hr.elim
  log := h.log
  events := h.events

/-- Lockstep runs of two sequences: the rests run in lockstep from the values of the first
parts. -/
theorem Simulates.bind {δ : Type} {R : α → β → Prop} {S : γ → δ → Prop}
    {x : Traced ε ω α} {y : Traced ε ω' β} {f : α → Traced ε ω γ} {g : β → Traced ε ω' δ}
    (h : Simulates proj E R x y)
    (hf : ∀ a b, y.result = .ok b → R a b → Simulates proj E S (f a) (g b)) :
    Simulates proj E S (x >>= f) (y >>= g) := by
  obtain ⟨rx, lx⟩ := x
  obtain ⟨ry, ly⟩ := y
  obtain ⟨hr, hl, he⟩ := h
  cases rx with
  | error e =>
    cases ry with
    -- Both fail, and neither continuation is run.
    | error e' => exact ⟨hr, hl, he⟩
    | ok b => exact hr.elim
  | ok a =>
    cases ry with
    | error e' => exact hr.elim
    | ok b =>
      obtain ⟨hr', hl', he'⟩ := hf a b rfl hr
      refine ⟨hr', ?_, ?_⟩
      · simp only [bind_ok, List.filterMap_append] at hl ⊢
        rw [hl, hl']
      · intro w hw
        rcases List.mem_append.mp hw with hw | hw
        · exact he w hw
        · exact he' w hw

/-- The first program takes a step of its own: it returns `a` and logs only events that
`proj` drops. -/
theorem Simulates.left {R : γ → β → Prop} {x : Traced ε ω α} {a : α} {l : List ω}
    {f : α → Traced ε ω γ} {y : Traced ε ω' β} (hx : x = ⟨.ok a, l⟩)
    (hp : ∀ w ∈ l, proj w = none) (hE : ∀ w ∈ l, E w) (h : Simulates proj E R (f a) y) :
    Simulates proj E R (x >>= f) y := by
  subst hx
  obtain ⟨hr, hl, he⟩ := h
  refine ⟨hr, ?_, ?_⟩
  · rw [bind_ok, List.filterMap_append, List.filterMap_eq_nil_iff.mpr hp, hl]
    rfl
  · intro w hw
    rcases List.mem_append.mp hw with hw | hw
    · exact hE w hw
    · exact he w hw

/-- The second program computes a value from what it returned. -/
theorem Simulates.map_right {δ : Type} {R : α → β → Prop} {S : α → δ → Prop} {x : Traced ε ω α}
    {y : Traced ε ω' β} {g : β → δ} (h : Simulates proj E R x y)
    (hS : ∀ a b, y.result = .ok b → R a b → S a (g b)) :
    Simulates proj E S x (y >>= fun b => Pure.pure (g b)) := by
  rw [← bind_pure x]
  exact h.bind fun a b hb hab => Simulates.pure (hS a b hb hab)

/-- The value the first program returns is matched by one the second returns. -/
theorem Simulates.ok {R : α → β → Prop} {x : Traced ε ω α} {y : Traced ε ω' β} {a : α}
    (h : Simulates proj E R x y) (hx : x.result = .ok a) : ∃ b, y.result = .ok b ∧ R a b := by
  have hr := h.result
  rw [hx] at hr
  cases hy : y.result with
  | ok b => rw [hy] at hr; exact ⟨b, rfl, hr⟩
  | error e => rw [hy] at hr; exact hr.elim

/-- The value the second program returns is matched by one the first returns. -/
theorem Simulates.ok_right {R : α → β → Prop} {x : Traced ε ω α} {y : Traced ε ω' β} {b : β}
    (h : Simulates proj E R x y) (hy : y.result = .ok b) : ∃ a, x.result = .ok a ∧ R a b := by
  have hr := h.result
  rw [hy] at hr
  cases hx : x.result with
  | ok a => rw [hx] at hr; exact ⟨a, rfl, hr⟩
  | error e => rw [hx] at hr; exact hr.elim

/-- The two programs fail together and in the same way. -/
theorem Simulates.error_iff {R : α → β → Prop} {x : Traced ε ω α} {y : Traced ε ω' β} {e : ε}
    (h : Simulates proj E R x y) : x.result = .error e ↔ y.result = .error e := by
  have hr := h.result
  cases hx : x.result with
  | ok a =>
    cases hy : y.result with
    | ok b => simp
    | error e' => rw [hx, hy] at hr; exact hr.elim
  | error e₁ =>
    cases hy : y.result with
    | ok b => rw [hx, hy] at hr; exact hr.elim
    | error e' =>
      rw [hx, hy] at hr
      cases (show e₁ = e' from hr)
      simp

end Simulates

/-! ### Fuel -/

/-- The flat order of a fuel-indexed interpreter whose exhaustion is the failure `bot`:
an exhausted program is below every program that logs at least as much. -/
def Approx (bot : ε) (x y : Traced ε ω α) : Prop :=
  x = y ∨ x.result = .error bot ∧ x.log <+: y.log

/-- Every program is below itself in the flat order. -/
theorem Approx.refl (bot : ε) (x : Traced ε ω α) : Approx bot x x := Or.inl rfl

/-- An exhausted program that logged nothing is below every program. -/
theorem Approx.raise (bot : ε) (y : Traced ε ω α) : Approx bot (Traced.raise bot) y :=
  Or.inr ⟨rfl, List.nil_prefix⟩

/-- The flat order is transitive. An exhausted program stays below, since prefixes of logs are
transitive too. -/
theorem Approx.trans {bot : ε} {x y z : Traced ε ω α} (h₁ : Approx bot x y)
    (h₂ : Approx bot y z) : Approx bot x z := by
  rcases h₁ with rfl | ⟨hx, hl⟩
  · exact h₂
  · rcases h₂ with rfl | ⟨hy, hl'⟩
    · exact Or.inr ⟨hx, hl⟩
    · exact Or.inr ⟨hx, hl.trans hl'⟩

/-- The flat order is kept by a program of two parts, when each part keeps it. An exhausted first
part leaves the second one out. -/
theorem Approx.bind {bot : ε} {x y : Traced ε ω α} {f g : α → Traced ε ω β}
    (h : Approx bot x y) (hf : ∀ a, Approx bot (f a) (g a)) :
    Approx bot (x >>= f) (y >>= g) := by
  obtain ⟨rx, lx⟩ := x
  obtain ⟨ry, ly⟩ := y
  rcases h with h | ⟨hx, hl⟩
  · cases h
    cases rx with
    | error e => exact Approx.refl bot _
    | ok a =>
      rcases hf a with h | ⟨hr, hl⟩
      · exact Or.inl (by rw [bind_ok, bind_ok, h])
      · exact Or.inr ⟨hr, (List.prefix_append_right_inj lx).mpr hl⟩
  · change rx = _ at hx
    subst hx
    refine Or.inr ⟨rfl, ?_⟩
    cases ry with
    | error e => exact hl
    | ok a => exact hl.trans (List.prefix_append ly (g a).log)

/-- A program that is not exhausted is not changed by more fuel. -/
theorem Approx.eq {bot : ε} {x y : Traced ε ω α} (h : Approx bot x y)
    (hx : x.result ≠ .error bot) : x = y :=
  h.resolve_right fun hb => hx hb.1

section Families

variable {bot : ε} {E : ω → Prop} {f g : Nat → Traced ε ω α} {x : Nat → Traced ε ω α}
  {k : Nat → α → Traced ε ω β}

/-- More fuel only adds to what the family `f` computes: a result that is not `bot` stays, and so do
the events. -/
def Growing (bot : ε) (f : Nat → Traced ε ω α) : Prop :=
  ∀ n, Approx bot (f n) (f (n + 1))

/-- Every large enough fuel is enough for the family `f`: the result is not `bot`, the lack of
fuel. -/
def Halts (bot : ε) (f : Nat → Traced ε ω α) : Prop :=
  ∃ m, ∀ n, m ≤ n → (f n).result ≠ .error bot

/-- The family `f` halts, provided that the events it logs satisfy `E`. The assumption is on the run
itself, so it can speak of what was computed. -/
def Terminates (bot : ε) (E : ω → Prop) (f : Nat → Traced ε ω α) : Prop :=
  (∃ m, ∀ n, m ≤ n → ∀ w ∈ (f n).log, E w) → Halts bot f

/-- Any amount of more fuel only adds to what is computed. The definition speaks of one unit
more. -/
theorem Growing.le (h : Growing bot f) {n m : Nat} (hnm : n ≤ m) :
    Approx bot (f n) (f m) := by
  induction hnm with
  | refl => exact Approx.refl bot _
  | step _ ih => exact ih.trans (h _)

/-- Enough fuel stays enough, and more fuel does not change the outcome. -/
theorem Growing.eq_of_le (h : Growing bot f) {n m : Nat} (hnm : n ≤ m)
    (hn : (f n).result ≠ .error bot) : f m = f n :=
  ((h.le hnm).eq hn).symm

/-- Two fuels that are both enough give the same outcome. -/
theorem Growing.unique (h : Growing bot f) {n m : Nat} (hn : (f n).result ≠ .error bot)
    (hm : (f m).result ≠ .error bot) : f n = f m := by
  rcases Nat.le_total n m with hnm | hnm
  · exact (h.eq_of_le hnm hn).symm
  · exact h.eq_of_le hnm hm

/-- What any fuel logs, a fuel that is enough logs. -/
theorem Growing.mem_log (h : Growing bot f) {n m : Nat} (hm : (f m).result ≠ .error bot) {w : ω}
    (hw : w ∈ (f n).log) : w ∈ (f m).log := by
  rcases Nat.le_total n m with hnm | hnm
  · rcases h.le hnm with heq | ⟨-, hlog⟩
    · rwa [← heq]
    · exact hlog.subset hw
  · rwa [← h.eq_of_le hnm hm]

/-- A program of two parts ends if the first one does and the second one does on every value of it.
The fuel is the larger one of both. -/
theorem Halts.bind (hx : Growing bot x) (h : Halts bot x)
    (h' : ∀ n a, (x n).result = .ok a → Halts bot (k · a)) :
    Halts bot (fun n => x n >>= k n) := by
  obtain ⟨n, hn⟩ := h
  cases hxn : (x n).result with
  | error e =>
    refine ⟨n, fun m hm => ?_⟩
    have hxm := hx.eq_of_le hm (hn n (Nat.le_refl n))
    have hne := hn m hm
    dsimp only
    rw [hxm] at hne ⊢
    rw [bind_of_error (k m) hxn]
    rintro ⟨rfl⟩
    exact hne hxn
  | ok a =>
    obtain ⟨m, hm⟩ := h' n a hxn
    refine ⟨max n m, fun l hl => ?_⟩
    have hxl := hx.eq_of_le (Nat.le_trans (Nat.le_max_left n m) hl) (hn n (Nat.le_refl n))
    dsimp only
    rw [hxl, bind_of_ok (k l) hxn]
    exact hm l (Nat.le_trans (Nat.le_max_right n m) hl)

/-- A family that is never out of fuel. -/
theorem Terminates.of_ne (h : ∀ n, (f n).result ≠ .error bot) : Terminates bot E f :=
  fun _ => ⟨0, fun n _ => h n⟩

/-- A program that ends by itself ends whatever is excepted. -/
theorem Terminates.of_halts (h : Halts bot f) : Terminates bot E f := fun _ => h

/-- A program that only returns a value ends. -/
theorem Terminates.pure (a : α) : Terminates bot E fun _ => (Pure.pure a : Traced ε ω α) :=
  Terminates.of_ne fun _ h => by cases h

/-- A test that does not depend on the fuel. -/
theorem Terminates.ite {P : Prop} [Decidable P] (hf : P → Terminates bot E f)
    (hg : ¬ P → Terminates bot E g) : Terminates bot E fun n => if P then f n else g n := by
  by_cases h : P
  · simpa only [if_pos h] using hf h
  · simpa only [if_neg h] using hg h

/-- A call spends one unit of fuel and goes on with its body. -/
theorem Terminates.of_succ (h : Terminates bot E g) (hf : ∀ n, f (n + 1) = g n) :
    Terminates bot E f := by
  rintro ⟨m, hm⟩
  obtain ⟨m', hm'⟩ := h ⟨m, fun n hn => by
    rw [← hf]
    exact hm (n + 1) (Nat.le_succ_of_le hn)⟩
  refine ⟨m' + 1, fun n hn => ?_⟩
  obtain ⟨n, rfl⟩ := Nat.exists_eq_add_of_le' (Nat.lt_of_lt_of_le m'.succ_pos hn)
  rw [hf]
  exact hm' n (Nat.le_of_succ_le_succ hn)

/-- A sequence terminates when its first part does and the rest does from each value the first
part returns. The events of both parts are events of the sequence. -/
theorem Terminates.bind (hx : Growing bot x) (h : Terminates bot E x)
    (h' : ∀ n a, (x n).result = .ok a → Terminates bot E (k · a)) :
    Terminates bot E (fun n => x n >>= k n) := by
  rintro ⟨m, hm⟩
  refine Halts.bind hx (h ⟨m, fun n hn w hw => ?_⟩) fun n a ha => h' n a ha ⟨max n m, ?_⟩
  · exact hm n hn w (mem_bind_log.mpr (Or.inl hw))
  · intro l hl w hw
    have hxl := hx.eq_of_le (Nat.le_trans (Nat.le_max_left n m) hl) (by simp [ha])
    exact hm l (Nat.le_trans (Nat.le_max_right n m) hl) w
      (mem_bind_log.mpr (Or.inr ⟨a, by rw [hxl, ha], hw⟩))

/-- After an event that the sequence logs first, `E` holds of that event. -/
theorem Terminates.emit {w : ω} {k : Nat → Unit → Traced ε ω β}
    (h : E w → Terminates bot E (k · ())) :
    Terminates bot E (fun n => Traced.emit w >>= k n) := by
  rintro ⟨m, hm⟩
  have hw : E w := hm m (Nat.le_refl m) w (mem_bind_log.mpr (Or.inl (by simp)))
  obtain ⟨m', hm'⟩ := h hw ⟨m, fun n hn w' hw' =>
    hm n hn w' (mem_bind_log.mpr (Or.inr ⟨(), rfl, hw'⟩))⟩
  exact ⟨m', fun n hn hbot => hm' n hn (by simpa [bind_of_ok] using hbot)⟩

end Families

end Traced

end TSubSpec.Lib
