import Mathlib.Algebra.Ring.Int.Defs
import Mathlib.Algebra.Ring.Divisibility.Basic
import Mathlib.Data.List.Infix

/-!
# Cadence

Flags that are on at the multiples of a period, along a count that goes up by
one: any window as long as the period has exactly one flag on.
-/

/-- The flags are on at the multiples of `m`, from the count `t` on. -/
def Cadence (m : ℤ) : ℤ → List Bool → Prop
  | _, [] => True
  | t, flag :: rest => (flag = true ↔ m ∣ t) ∧ Cadence m (t + 1) rest

namespace Cadence

variable {m t t' : ℤ} {flags as bs : List Bool}

@[simp] theorem nil : Cadence m t [] := trivial

@[simp] theorem cons_iff {flag : Bool} {rest : List Bool} :
    Cadence m t (flag :: rest) ↔ (flag = true ↔ m ∣ t) ∧ Cadence m (t + 1) rest := Iff.rfl

/-- Only the residue of the count matters. -/
theorem congr (h : Cadence m t flags) (hmod : m ∣ t' - t) : Cadence m t' flags := by
  induction flags generalizing t t' with
  | nil => trivial
  | cons flag rest ih =>
      have hsame : m ∣ t' ↔ m ∣ t := by
        have hadd : m ∣ t' - t + t ↔ m ∣ t := dvd_add_right hmod
        rwa [sub_add_cancel] at hadd
      refine ⟨h.1.trans hsame.symm, ih h.2 ?_⟩
      have hshift : t' + 1 - (t + 1) = t' - t := by omega
      rwa [hshift]

theorem append_iff :
    Cadence m t (as ++ bs) ↔ Cadence m t as ∧ Cadence m (t + as.length) bs := by
  induction as generalizing t with
  | nil => simp
  | cons a as ih =>
      have hcount : t + 1 + (as.length : ℤ) = t + ((a :: as).length : ℤ) := by
        rw [List.length_cons]
        omega
      rw [List.cons_append, cons_iff, cons_iff, ih, hcount, and_assoc]

/-- A window of the flags has the cadence at a later count. -/
theorem of_infix (h : Cadence m t flags) {window : List Bool} (hw : window <:+: flags) :
    ∃ u, Cadence m u window := by
  obtain ⟨before, after, rfl⟩ := hw
  exact ⟨_, (append_iff.mp (append_iff.mp h).1).2⟩

/-- Short of the next multiple, every flag is off. -/
theorem count_eq_zero (h : Cadence m t flags)
    (hfar : ∀ i : ℕ, i < flags.length → ¬m ∣ t + i) : flags.count true = 0 := by
  induction flags generalizing t with
  | nil => rfl
  | cons flag rest ih =>
      have hoff : flag = false := by
        have hnot := hfar 0 (by simp)
        rw [Nat.cast_zero, add_zero, ← h.1] at hnot
        exact Bool.eq_false_iff.mpr hnot
      rw [hoff, List.count_cons_of_ne (by simp)]
      apply ih h.2
      intro i hi
      have hnot := hfar (i + 1) (by simpa using hi)
      rwa [Nat.cast_add, Nat.cast_one, add_comm (i : ℤ), ← add_assoc] at hnot

/-- As many flags as the period is long have exactly one on. -/
theorem count_eq_one (hm : 0 < m) (h : Cadence m t flags) (hlen : (flags.length : ℤ) = m) :
    flags.count true = 1 := by
  obtain ⟨d, hd⟩ := Int.eq_ofNat_of_zero_le (Int.emod_nonneg (-t) (by omega : m ≠ 0))
  have hdm : (d : ℤ) < m := hd ▸ Int.emod_lt_of_pos (-t) hm
  have hmul : m ∣ t + d := by
    rw [← hd, ← dvd_neg, neg_add]
    exact Int.dvd_self_sub_emod
  have hother (i : ℤ) (hpos : 0 < i) (hlt : i < m) : ¬m ∣ i := fun hdvd =>
    absurd (Int.le_of_dvd hpos hdvd) (by omega)
  -- the multiple lies `d` flags into the window
  have hsplit := List.take_append_drop d flags
  have htake : (flags.take d).length = d := List.length_take_of_le (by omega)
  rcases hdrop : flags.drop d with _ | ⟨flag, rest⟩
  · have hlen' := congrArg List.length hdrop
    rw [List.length_drop, List.length_nil] at hlen'
    omega
  · have hrest : rest.length + 1 + d = flags.length := by
      have hlen' := congrArg List.length hdrop
      rw [List.length_drop, List.length_cons] at hlen'
      omega
    rw [← hsplit, hdrop, append_iff, htake, cons_iff] at h
    obtain ⟨hbefore, hon, hafter⟩ := h
    have hzeroBefore : (flags.take d).count true = 0 := by
      apply count_eq_zero hbefore
      intro i hi hdvd
      have hgap : m ∣ (d : ℤ) - i := by
        have hdiff : (d : ℤ) - i = t + d - (t + i) := by omega
        rw [hdiff]
        exact dvd_sub hmul hdvd
      exact hother _ (by omega) (by omega) hgap
    have hzeroAfter : rest.count true = 0 := by
      apply count_eq_zero hafter
      intro i hi hdvd
      have hgap : m ∣ (i : ℤ) + 1 := by
        have hdiff : (i : ℤ) + 1 = t + d + 1 + i - (t + d) := by omega
        rw [hdiff]
        exact dvd_sub hdvd hmul
      exact hother _ (by omega) (by omega) hgap
    rw [← hsplit, hdrop, List.count_append, hzeroBefore, hon.mpr hmul, List.count_cons_self,
      hzeroAfter]

/-- Any window as long as the period has exactly one flag on. -/
theorem count_window (hm : 0 < m) (h : Cadence m t flags) {window : List Bool}
    (hw : window <:+: flags) (hlen : (window.length : ℤ) = m) : window.count true = 1 := by
  obtain ⟨u, hu⟩ := h.of_infix hw
  exact hu.count_eq_one hm hlen

end Cadence
