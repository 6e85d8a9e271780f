import Mathlib.Algebra.Order.Field.Basic
import Mathlib.Tactic.Linarith
import Mathlib.Tactic.Ring

/-!
# `TSubSpec.Lib.Nearest`: a scan for the nearest candidate

`nearest dist bound init xs` walks through `xs` and keeps a candidate when it is strictly closer
than the best one so far. The scan starts with a bound in place of a distance, and with a best
candidate that need not be one of `xs`. So there are two cases: some candidate is below the bound,
and then the result is the first of the closest ones (`nearest_of_first`), or none is, and then the
result is what the scan started with (`nearest_of_le`).

Distances on a line are compared by the middles: `abs_sub_lt_of_between` and
`abs_sub_le_of_between`.
-/

set_option autoImplicit false

namespace TSubSpec.Lib

/-! ### The scan -/

section

variable {α K : Type} [LinearOrder K] {dist : α → K}

/-- Keep the best candidate unless `x` is strictly closer. -/
def closer (dist : α → K) (best : K × α) (x : α) : K × α :=
  if dist x < best.1 then (dist x, x) else best

/-- The scan over all candidates. -/
def nearest (dist : α → K) (bound : K) (init : α) (xs : List α) : K × α :=
  xs.foldl (closer dist) (bound, init)

/-- A best candidate stays when nothing is strictly closer. -/
theorem foldl_closer_of_le {best : K × α} {xs : List α} (h : ∀ y ∈ xs, best.1 ≤ dist y) :
    xs.foldl (closer dist) best = best := by
  induction xs with
  | nil => rfl
  | cons y ys ih =>
    have hy : closer dist best y = best := if_neg (not_lt.mpr (h y List.mem_cons_self))
    rw [List.foldl_cons, hy]
    exact ih fun z hz => h z (List.mem_cons_of_mem _ hz)

/-- A distance that is below the bound and below all candidates is below the result. -/
theorem lt_foldl_closer {d : K} {best : K × α} {xs : List α} (hbest : d < best.1)
    (h : ∀ y ∈ xs, d < dist y) : d < (xs.foldl (closer dist) best).1 := by
  induction xs generalizing best with
  | nil => exact hbest
  | cons y ys ih =>
    have hy : d < (closer dist best y).1 := by
      by_cases hlt : dist y < best.1
      · simpa [closer, hlt] using h y List.mem_cons_self
      · simpa [closer, hlt] using hbest
    rw [List.foldl_cons]
    exact ih hy fun z hz => h z (List.mem_cons_of_mem _ hz)

/-- The result is as close as the best candidate before and as everything that the scan walks
through, and it is one of them. -/
theorem foldl_closer_spec (best : K × α) (xs : List α) :
    (xs.foldl (closer dist) best).1 ≤ best.1 ∧
      (∀ y ∈ xs, (xs.foldl (closer dist) best).1 ≤ dist y) ∧
      (xs.foldl (closer dist) best = best ∨
        ∃ y ∈ xs, xs.foldl (closer dist) best = (dist y, y)) := by
  induction xs generalizing best with
  | nil => exact ⟨le_rfl, by simp, .inl rfl⟩
  | cons x xs ih =>
    obtain ⟨hbest, hall, hone⟩ := ih (closer dist best x)
    rw [List.foldl_cons]
    -- The scan of `xs` starts with `x` or with the old best candidate.
    by_cases hlt : dist x < best.1
    · have hx : closer dist best x = (dist x, x) := if_pos hlt
      rw [hx] at hbest hall hone ⊢
      refine ⟨hbest.trans hlt.le, List.forall_mem_cons.mpr ⟨hbest, hall⟩, .inr ?_⟩
      rcases hone with h | ⟨y, hy, h⟩
      · exact ⟨x, List.mem_cons_self, h⟩
      · exact ⟨y, List.mem_cons_of_mem _ hy, h⟩
    · have hx : closer dist best x = best := if_neg hlt
      rw [hx] at hbest hall hone ⊢
      refine ⟨hbest, List.forall_mem_cons.mpr ⟨hbest.trans (not_lt.mp hlt), hall⟩, ?_⟩
      rcases hone with h | ⟨y, hy, h⟩
      · exact .inl h
      · exact .inr ⟨y, List.mem_cons_of_mem _ hy, h⟩

/-- No candidate is closer than the result, unless the result is what the scan started with. -/
theorem nearest_spec (dist : α → K) (bound : K) (init : α) (xs : List α) :
    nearest dist bound init xs = (bound, init) ∨
      (nearest dist bound init xs).2 ∈ xs ∧
        ∀ y ∈ xs, dist (nearest dist bound init xs).2 ≤ dist y := by
  obtain ⟨-, hall, hone⟩ := @foldl_closer_spec _ _ _ dist (bound, init) xs
  rcases hone with h | ⟨x, hx, h⟩
  · exact .inl h
  · right
    rw [h] at hall
    rw [nearest, h]
    exact ⟨hx, hall⟩

/-- No candidate is below the bound. -/
theorem nearest_of_le (dist : α → K) {bound : K} {xs : List α}
    (h : ∀ y ∈ xs, bound ≤ dist y) (init : α) :
    nearest dist bound init xs = (bound, init) :=
  foldl_closer_of_le h

/-- The result is the first of the closest candidates. -/
theorem nearest_of_first (dist : α → K) {bound : K} {x : α} {front back : List α}
    (hbound : dist x < bound) (hfront : ∀ y ∈ front, dist x < dist y)
    (hback : ∀ y ∈ back, dist x ≤ dist y) (init : α) :
    nearest dist bound init (front ++ x :: back) = (dist x, x) := by
  have hx : closer dist (front.foldl (closer dist) (bound, init)) x = (dist x, x) :=
    if_pos (lt_foldl_closer hbound hfront)
  show (front ++ x :: back).foldl (closer dist) (bound, init) = (dist x, x)
  rw [List.foldl_append, List.foldl_cons, hx]
  exact foldl_closer_of_le hback

end

/-! ### Distances on a line -/

section

variable {K : Type} [Field K] [LinearOrder K] [IsStrictOrderedRing K]

/-- Between `lo` and `hi`, `b` is further away than `a` when the middle of the two is outside. -/
theorem abs_sub_lt_of_between {r a b lo hi : K} (hlo : lo < r) (hhi : r < hi)
    (h : (a < b ∧ 2 * hi ≤ a + b) ∨ (b < a ∧ a + b ≤ 2 * lo)) : |r - a| < |r - b| := by
  rcases h with ⟨hab, hmiddle⟩ | ⟨hab, hmiddle⟩
  · have hlt : |r - a| < b - r := abs_lt.mpr ⟨by linarith, by linarith⟩
    rw [abs_sub_comm r b]
    exact hlt.trans_le (le_abs_self (b - r))
  · have hlt : |r - a| < r - b := abs_lt.mpr ⟨by linarith, by linarith⟩
    exact hlt.trans_le (le_abs_self (r - b))

/-- The same for a range with its ends, where the middle can be an end. -/
theorem abs_sub_le_of_between {r a b lo hi : K} (hlo : lo ≤ r) (hhi : r ≤ hi)
    (h : a = b ∨ (a < b ∧ 2 * hi ≤ a + b) ∨ (b < a ∧ a + b ≤ 2 * lo)) : |r - a| ≤ |r - b| := by
  rcases h with rfl | ⟨hab, hmiddle⟩ | ⟨hab, hmiddle⟩
  · exact le_rfl
  · have hle : |r - a| ≤ b - r := abs_le.mpr ⟨by linarith, by linarith⟩
    rw [abs_sub_comm r b]
    exact hle.trans (le_abs_self (b - r))
  · have hle : |r - a| ≤ r - b := abs_le.mpr ⟨by linarith, by linarith⟩
    exact hle.trans (le_abs_self (r - b))

end

end TSubSpec.Lib
