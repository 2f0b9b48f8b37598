import Mathlib.Data.List.Basic
import Mathlib.Order.Basic

/-!
# Clipped ticks

A budget of time is spent in steps of a fixed size, of which the last is clipped
to what is left.
-/

namespace Ticks

variable {step budget t : ℕ}

/-- The times spent after each of the steps from `t` on. -/
def ticksFrom (step budget t : ℕ) : List ℕ :=
  if _h : 0 < step ∧ t < budget then
    (t + min (budget - t) step) :: ticksFrom step budget (t + min (budget - t) step)
  else []
  termination_by budget - t
  decreasing_by omega

theorem ticksFrom_done (h : budget ≤ t) : ticksFrom step budget t = [] := by
  rw [ticksFrom, dif_neg (by omega)]

theorem ticksFrom_of_lt (hstep : 0 < step) (h : t < budget) :
    ticksFrom step budget t =
      (t + min (budget - t) step) :: ticksFrom step budget (t + min (budget - t) step) := by
  rw [ticksFrom, dif_pos ⟨hstep, h⟩]

/-- Time passes with every step, up to the budget. -/
theorem lt_of_mem_ticksFrom {x : ℕ} (h : x ∈ ticksFrom step budget t) : t < x ∧ x ≤ budget := by
  fun_induction ticksFrom step budget t with
  | case1 t hlt ih =>
      rcases List.mem_cons.mp h with rfl | htail
      · omega
      · have := ih htail
        omega
  | case2 t hge => cases h

theorem pairwise_ticksFrom (step budget t : ℕ) : (ticksFrom step budget t).Pairwise (· < ·) := by
  fun_induction ticksFrom step budget t with
  | case1 t hlt ih => exact List.Pairwise.cons (fun x hx => (lt_of_mem_ticksFrom hx).1) ih
  | case2 t hge => exact List.Pairwise.nil

/-- The last step spends what is left. -/
theorem getLast?_ticksFrom (hstep : 0 < step) (h : t < budget) :
    (ticksFrom step budget t).getLast? = some budget := by
  fun_induction ticksFrom step budget t with
  | case1 t hlt ih =>
      rcases Nat.lt_or_ge (t + min (budget - t) step) budget with hmore | hlast
      · rw [List.getLast?_cons, ih hmore]
        rfl
      · rw [ticksFrom_done hlast]
        simp only [List.getLast?_singleton, Option.some.injEq]
        omega
  | case2 t hge => exact absurd ⟨hstep, h⟩ hge

/-- There are steps exactly when there is something to spend. -/
theorem ticksFrom_eq_nil_iff (hstep : 0 < step) : ticksFrom step budget t = [] ↔ budget ≤ t := by
  constructor
  · intro hnil
    by_contra hlt
    rw [ticksFrom_of_lt hstep (Nat.lt_of_not_le hlt)] at hnil
    cases hnil
  · exact ticksFrom_done

end Ticks
