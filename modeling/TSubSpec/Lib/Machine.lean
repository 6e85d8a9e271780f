import Mathlib.Data.List.Basic

/-!
# `TSubSpec.Lib.Machine`: runs of a machine

A machine is a partial function `step` from a state and an action to the next state. `Steps` is
its reachability: `t` is reached from `s` by steps that all satisfy `ok`, a condition on the state
before the step and on the action. A property that every such step preserves holds in every state
that is reached (`Steps.invariant`).

`runActions` performs a list of actions, so a single run can be computed. `Always` and `Along` say
that something holds in every state of such a run, or at every step. If a condition on a step is
exactly what keeps a property, the property holds always if and only if the condition holds along
the run (`always_iff_along`).
-/

set_option autoImplicit false

namespace TSubSpec.Lib

section

variable {σ α : Type} (step : σ → α → Option σ)

/-- The machine that stops at a step that does not pass the check. So a run of it can be computed,
and is a run whose steps all satisfy the condition. -/
def guarded (check : σ → α → Bool) (s : σ) (a : α) : Option σ :=
  if check s a then step s a else none

/-- Performs the actions in order. There is no state if one of them cannot be taken. -/
def runActions : σ → List α → Option σ
  | s, [] => some s
  | s, a :: as => (step s a).bind fun t => runActions t as

/-- From `s` the machine comes to `t` by steps that satisfy `ok`. The condition is on the state
before the step and on the action. -/
inductive Steps (ok : σ → α → Prop) (s : σ) : σ → Prop
  | refl : Steps ok s s
  | next {t u : σ} {a : α} (prior : Steps ok s t) (allowed : ok t a) (taken : step t a = some u) :
      Steps ok s u

/-- `Q` holds in every state of the run, the first and the last one among them. -/
def Always (Q : σ → Prop) : σ → List α → Prop
  | s, [] => Q s
  | s, a :: as => Q s ∧ ∀ t, step s a = some t → Always Q t as

/-- `P` holds at every step of the run, of the state before it and the action. -/
def Along (P : σ → α → Prop) : σ → List α → Prop
  | _, [] => True
  | s, a :: as => P s a ∧ ∀ t, step s a = some t → Along P t as

variable {step} {ok : σ → α → Prop} {s t u : σ}

/-- A run that begins with a step goes on from the state behind it. -/
theorem runActions_cons {a : α} (h : step s a = some t) (as : List α) :
    runActions step s (a :: as) = runActions step t as := by
  rw [runActions, h, Option.bind_some]

namespace Steps

/-- What holds at the start, and is preserved by every step, holds in every state reached. -/
theorem invariant {I : σ → Prop} (h : Steps step ok s t) (hs : I s)
    (hstep : ∀ t a u, I t → ok t a → step t a = some u → I u) : I t := by
  induction h with
  | refl => exact hs
  | next prior allowed taken ih => exact hstep _ _ _ ih allowed taken

/-- Two runs, one behind the other, are a run. -/
theorem trans (h : Steps step ok s t) (h' : Steps step ok t u) : Steps step ok s u := by
  induction h' with
  | refl => exact h
  | next prior allowed taken ih => exact .next ih allowed taken

end Steps

/-- A state that is computed under a check of the steps is reached by such steps. -/
theorem steps_of_runActions {check : σ → α → Bool} (hcheck : ∀ s a, check s a = true → ok s a) :
    ∀ {as : List α} {s : σ}, runActions (guarded step check) s as = some t → Steps step ok s t
  | [], s, h => by
    cases h
    exact .refl
  | a :: as, s, h => by
    obtain ⟨u, hu, h⟩ := Option.bind_eq_some_iff.mp h
    unfold guarded at hu
    split at hu
    · next ha => exact (Steps.next .refl (hcheck s a ha) hu).trans (steps_of_runActions hcheck h)
    · cases hu

section

variable {Q : σ → Prop} {P : σ → α → Prop}

/-- What holds in every state of a run holds at its beginning. -/
theorem Always.head {as : List α} (h : Always step Q s as) : Q s := by
  cases as with
  | nil => exact h
  | cons a as => exact h.1

/-- What follows from a property and a condition holds at every step, if the property holds always
and the condition along the run. -/
theorem Always.along {R : σ → α → Prop} (hP : ∀ s a, Q s → R s a → P s a) :
    ∀ {as : List α} {s : σ}, Always step Q s as → Along step R s as → Along step P s as
  | [], _, _, _ => trivial
  | a :: _, s, h, hR => ⟨hP s a h.1 hR.1, fun t ht => Always.along hP (h.2 t ht) (hR.2 t ht)⟩

/-- A condition that is exactly what a step needs to keep a property, on a run that does not
stop. -/
theorem always_iff_along (hstep : ∀ s a t, Q s → step s a = some t → (P s a ↔ Q t)) :
    ∀ {as : List α} {s : σ}, Q s → runActions step s as = some u →
      (Always step Q s as ↔ Along step P s as)
  | [], _, hs, _ => iff_of_true hs trivial
  | a :: as, s, hs, hrun => by
    obtain ⟨t, ht, hrun⟩ := Option.bind_eq_some_iff.mp hrun
    have hP : P s a ↔ Q t := hstep s a t hs ht
    constructor
    · rintro ⟨-, hnext⟩
      have hQ : Q t := (hnext t ht).head
      refine ⟨hP.mpr hQ, fun t' ht' => ?_⟩
      obtain rfl := Option.some.inj (ht.symm.trans ht')
      exact (always_iff_along hstep hQ hrun).mp (hnext t ht)
    · rintro ⟨ha, hnext⟩
      refine ⟨hs, fun t' ht' => ?_⟩
      obtain rfl := Option.some.inj (ht.symm.trans ht')
      exact (always_iff_along hstep (hP.mp ha) hrun).mpr (hnext t ht)

end

end

end TSubSpec.Lib
