import Mathlib.Algebra.BigOperators.Group.List.Basic
import Mathlib.Algebra.Order.BigOperators.Group.List
import Mathlib.Tactic.Linarith

/-!
# Truncated shares

A total is shared out by weight, every share rounded down by itself.  The shares
never exceed the total, fall short of it by less than their number, and add up
to it exactly when no share is rounded.
-/

namespace Shares

/-- The share of one weight. -/
def share (total weightSum weight : ℕ) : ℕ := total * weight / weightSum

/-- The sum of the shares of some weights. -/
def shared (total weightSum : ℕ) (weights : List ℕ) : ℕ :=
  (weights.map (share total weightSum)).sum

variable {weightSum : ℕ} {weights : List ℕ} (total : ℕ)

@[simp] theorem shared_nil (weightSum : ℕ) : shared total weightSum [] = 0 := rfl

@[simp] theorem shared_cons (weightSum w : ℕ) (ws : List ℕ) :
    shared total weightSum (w :: ws) = share total weightSum w + shared total weightSum ws := rfl

/-- Shares and remainders make up the whole. -/
theorem mul_shared_add_remainders (weightSum : ℕ) (weights : List ℕ) :
    weightSum * shared total weightSum weights +
      (weights.map fun w => total * w % weightSum).sum = total * weights.sum := by
  induction weights with
  | nil => rfl
  | cons w ws ih =>
      have hdiv := Nat.div_add_mod (total * w) weightSum
      rw [shared_cons, share, List.map_cons, List.sum_cons, List.sum_cons, Nat.mul_add,
        Nat.mul_add]
      omega

theorem shared_le (hsum : weights.sum = weightSum) (hpos : 0 < weightSum) :
    shared total weightSum weights ≤ total := by
  have hwhole := mul_shared_add_remainders total weightSum weights
  rw [hsum] at hwhole
  have hle : weightSum * shared total weightSum weights ≤ weightSum * total := by
    rw [Nat.mul_comm weightSum total]
    omega
  exact Nat.le_of_mul_le_mul_left hle hpos

/-- Nothing is lost exactly when nothing is rounded. -/
theorem shared_eq_iff (hsum : weights.sum = weightSum) (hpos : 0 < weightSum) :
    shared total weightSum weights = total ↔ ∀ w ∈ weights, weightSum ∣ total * w := by
  have hwhole := mul_shared_add_remainders total weightSum weights
  rw [hsum] at hwhole
  have hzero : shared total weightSum weights = total ↔
      (weights.map fun w => total * w % weightSum).sum = 0 := by
    constructor
    · intro h
      rw [h, Nat.mul_comm] at hwhole
      omega
    · intro h
      rw [h, Nat.add_zero, Nat.mul_comm] at hwhole
      exact Nat.eq_of_mul_eq_mul_right hpos hwhole
  rw [hzero, List.sum_eq_zero_iff]
  simp only [List.mem_map, forall_exists_index, and_imp, forall_apply_eq_imp_iff₂,
    Nat.dvd_iff_mod_eq_zero]

/-- The remainders together are less than one unit for each weight. -/
theorem remainders_add_length_le (hpos : 0 < weightSum) (weights : List ℕ) :
    (weights.map fun w => total * w % weightSum).sum + weights.length ≤
      weightSum * weights.length := by
  induction weights with
  | nil => simp
  | cons w ws ih =>
      have hmod := Nat.mod_lt (total * w) hpos
      rw [List.map_cons, List.sum_cons, List.length_cons, Nat.mul_add, Nat.mul_one]
      omega

/-- What is lost is less than the number of shares. -/
theorem total_lt_shared_add_length (hsum : weights.sum = weightSum) (hpos : 0 < weightSum) :
    total < shared total weightSum weights + weights.length := by
  have hwhole := mul_shared_add_remainders total weightSum weights
  have hlost := remainders_add_length_le total hpos weights
  have hsome : 0 < weights.length := by
    rw [List.length_pos_iff]
    rintro rfl
    rw [List.sum_nil] at hsum
    omega
  rw [hsum] at hwhole
  have hlt : weightSum * total < weightSum * (shared total weightSum weights + weights.length) := by
    rw [Nat.mul_add, Nat.mul_comm weightSum total]
    omega
  exact Nat.lt_of_mul_lt_mul_left hlt

end Shares
