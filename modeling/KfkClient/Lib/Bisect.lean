import Mathlib

/-!
# Bisection

Narrowing an interval of positions to the first one at which a predicate that, once it
fails, never holds again, does fail.
-/

namespace Bisect

/-- The loop of a binary search: `before mid` says that what is looked for comes after
`mid`. -/
def lowerBound (before : ℕ → Bool) (left right : ℕ) : ℕ :=
  if left < right then
    let mid := (left + right) / 2
    if before mid then lowerBound before (mid + 1) right else lowerBound before left mid
  else right
termination_by right - left

variable {before : ℕ → Bool} {left right : ℕ}

/-- The result parts the interval into the positions before it and those from it on. -/
theorem lowerBound_spec (hmono : ∀ i j, i ≤ j → j < right → before j = true → before i = true)
    (hle : left ≤ right) :
    left ≤ lowerBound before left right ∧ lowerBound before left right ≤ right ∧
      (∀ i, left ≤ i → i < lowerBound before left right → before i = true) ∧
      ∀ i, lowerBound before left right ≤ i → i < right → before i = false := by
  induction left, right using lowerBound.induct before with
  | case1 left right hlt mid hmid ih =>
    have hbounds : left ≤ mid ∧ mid < right := ⟨by omega, by omega⟩
    obtain ⟨hlo, hhi, hbelow, habove⟩ := ih hmono hbounds.2
    have heq : lowerBound before left right = lowerBound before (mid + 1) right := by
      rw [lowerBound, if_pos hlt]
      dsimp only
      rw [if_pos hmid]
    rw [heq]
    refine ⟨by omega, hhi, fun i hi hlt => ?_, habove⟩
    by_cases him : i ≤ mid
    · exact hmono i mid him hbounds.2 hmid
    · exact hbelow i (by omega) hlt
  | case2 left right hlt mid hmid ih =>
    have hbounds : left ≤ mid ∧ mid < right := ⟨by omega, by omega⟩
    obtain ⟨hlo, hhi, hbelow, habove⟩ :=
      ih (fun i j hij hj => hmono i j hij (by omega)) hbounds.1
    have heq : lowerBound before left right = lowerBound before left mid := by
      rw [lowerBound, if_pos hlt]
      dsimp only
      rw [if_neg hmid]
    rw [heq]
    refine ⟨hlo, by omega, hbelow, fun i hi hir => ?_⟩
    by_cases him : i < mid
    · exact habove i hi him
    · by_contra hne
      exact hmid (hmono mid i (by omega) hir (by simpa using hne))
  | case3 left right hge =>
    rw [lowerBound, if_neg hge]
    exact ⟨hle, le_rfl, fun i hi hlt => by omega, fun i hi hlt => by omega⟩

end Bisect
