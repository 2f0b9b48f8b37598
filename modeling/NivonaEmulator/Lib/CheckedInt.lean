import Mathlib.Data.Rat.Floor

/-!
# Checked machine arithmetic

Operations on machine integers that have no result where the exact one leaves
the type, and the steps of a program whose steps may have none.
-/

namespace CheckedInt

/-- A sum of signed numbers. -/
def addI32 (a b : Int32) : Option Int32 :=
  if -2 ^ 31 ≤ a.toInt + b.toInt ∧ a.toInt + b.toInt < 2 ^ 31 then some (a + b) else none

/-- A sum of unsigned numbers. -/
def addU32 (a b : UInt32) : Option UInt32 :=
  if a.toNat + b.toNat < 2 ^ 32 then some (a + b) else none

/-- A product of unsigned numbers. -/
def mulU32 (a b : UInt32) : Option UInt32 :=
  if a.toNat * b.toNat < 2 ^ 32 then some (a * b) else none

/-- An exact number, truncated to an unsigned one. -/
def truncU32 (q : ℚ) : Option UInt32 :=
  if 0 ≤ ⌊q⌋ ∧ ⌊q⌋ < 2 ^ 32 then some (UInt32.ofInt ⌊q⌋) else none

theorem addI32_some {a b c : Int32} (h : addI32 a b = some c) :
    c = a + b ∧ c.toInt = a.toInt + b.toInt := by
  rw [addI32] at h
  split at h
  · rename_i hrange
    obtain rfl := Option.some.inj h
    refine ⟨rfl, ?_⟩
    rw [Int32.toInt_add]
    exact Int.bmod_eq_of_le (by omega) (by omega)
  · cases h

theorem addU32_some {a b c : UInt32} (h : addU32 a b = some c) :
    c = a + b ∧ c.toNat = a.toNat + b.toNat := by
  rw [addU32] at h
  split at h
  · rename_i hrange
    obtain rfl := Option.some.inj h
    exact ⟨rfl, by rw [UInt32.toNat_add, Nat.mod_eq_of_lt hrange]⟩
  · cases h

theorem mulU32_some {a b c : UInt32} (h : mulU32 a b = some c) :
    c = a * b ∧ c.toNat = a.toNat * b.toNat := by
  rw [mulU32] at h
  split at h
  · rename_i hrange
    obtain rfl := Option.some.inj h
    exact ⟨rfl, by rw [UInt32.toNat_mul, Nat.mod_eq_of_lt hrange]⟩
  · cases h

theorem truncU32_some {q : ℚ} {c : UInt32} (h : truncU32 q = some c) :
    c = UInt32.ofInt ⌊q⌋ ∧ (c.toNat : ℤ) = ⌊q⌋ := by
  rw [truncU32] at h
  split at h
  · rename_i hrange
    obtain rfl := Option.some.inj h
    refine ⟨rfl, ?_⟩
    rw [UInt32.ofInt, UInt32.toNat_ofNat']
    omega
  · cases h

/-- Positive numbers are added up, and others skipped. -/
def addPositive (total v : Int32) : Option Int32 := if v > 0 then addI32 total v else some total

/-- The exact sum of the positive numbers. -/
def positiveSum (vs : List Int32) : ℤ := (vs.map fun v => max v.toInt 0).sum

theorem positiveSum_nonneg (vs : List Int32) : 0 ≤ positiveSum vs := by
  induction vs with
  | nil => exact le_rfl
  | cons v vs ih =>
      have hcons : positiveSum (v :: vs) = max v.toInt 0 + positiveSum vs := rfl
      have hhead : 0 ≤ max v.toInt 0 := le_max_right _ _
      omega

/-- The partial sums stay in the type exactly when the whole sum does. -/
theorem foldlM_addPositive {vs : List Int32} {total : Int32} (hpos : 0 ≤ total.toInt) :
    (total.toInt + positiveSum vs < 2 ^ 31 →
      ∃ sum, vs.foldlM addPositive total = some sum ∧ sum.toInt = total.toInt + positiveSum vs) ∧
    ((vs.foldlM addPositive total).isSome → total.toInt + positiveSum vs < 2 ^ 31) := by
  induction vs generalizing total with
  | nil =>
      have hlt := total.toInt_lt
      have hnil : positiveSum [] = 0 := rfl
      exact ⟨fun _ => ⟨total, rfl, by rw [hnil, add_zero]⟩, fun _ => by rw [hnil]; omega⟩
  | cons v vs ih =>
      have hcons : positiveSum (v :: vs) = max v.toInt 0 + positiveSum vs := rfl
      have hrest := positiveSum_nonneg vs
      rw [hcons, List.foldlM_cons, addPositive]
      by_cases hv : v > 0
      · have hvpos : 0 < v.toInt := Int32.lt_iff_toInt_lt.mp hv
        rw [if_pos hv, max_eq_left (by omega)]
        by_cases hfit : total.toInt + v.toInt < 2 ^ 31
        · have hadd : addI32 total v = some (total + v) := if_pos ⟨by omega, hfit⟩
          have hvalue := (addI32_some hadd).2
          have hnext := @ih (total + v) (by omega)
          rw [hvalue] at hnext
          rw [hadd, ← add_assoc]
          exact hnext
        · have hadd : addI32 total v = none := if_neg fun h => hfit h.2
          rw [hadd]
          exact ⟨fun h => absurd h (by omega), fun h => by cases h⟩
      · have hvle : v.toInt ≤ 0 := not_lt.mp fun h => hv (Int32.lt_iff_toInt_lt.mpr h)
        rw [if_neg hv, max_eq_right hvle, zero_add]
        exact ih hpos

/-! ## Steps that may have no result -/

section

variable {σ : Type*} {f : σ → Option σ}

/-- So many steps, one after another. -/
def steps (f : σ → Option σ) : ℕ → σ → Option σ
  | 0, s => some s
  | n + 1, s => (f s).bind (steps f n)

/-- No step is without a result. -/
def Total (f : σ → Option σ) (s : σ) : Prop := ∀ n, (steps f n s).isSome

theorem total_iff {s : σ} : Total f s ↔ ∃ s', f s = some s' ∧ Total f s' := by
  constructor
  · intro h
    cases hstep : f s with
    | none =>
        have hone := h 1
        rw [steps, hstep] at hone
        cases hone
    | some s' =>
        refine ⟨s', rfl, fun n => ?_⟩
        have hnext := h (n + 1)
        rwa [steps, hstep] at hnext
  · rintro ⟨s', hstep, h⟩ n
    cases n with
    | zero => rfl
    | succ n =>
        rw [steps, hstep]
        exact h n

theorem total_of_some {s s' : σ} (h : f s = some s') : Total f s ↔ Total f s' := by
  rw [total_iff]
  constructor
  · rintro ⟨s'', hstep, htotal⟩
    obtain rfl := Option.some.inj (h.symm.trans hstep)
    exact htotal
  · exact fun htotal => ⟨s', h, htotal⟩

theorem not_total_of_none {s : σ} (h : f s = none) : ¬Total f s := by
  rw [total_iff]
  rintro ⟨s', hstep, -⟩
  rw [h] at hstep
  cases hstep

/-- A state that steps to itself. -/
theorem total_of_fixed {s : σ} (h : f s = some s) : Total f s := by
  intro n
  have hsteps : steps f n s = some s := by
    induction n with
    | zero => rfl
    | succ n ih => rw [steps, h, Option.bind_some, ih]
  rw [hsteps]
  rfl

end

end CheckedInt
