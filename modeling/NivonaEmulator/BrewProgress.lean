import NivonaEmulator.BrewRamp

/-!
# How far the progress gets

The budget of each stage is rounded down by itself.  What is lost is missing at
the end of the ramp, so that a brew shows 100 % before it is over exactly when
no budget is rounded.
-/

namespace Nivona

open Shares Ticks

/-- The budgets add up to the total, and a brew that nobody cancels has shown 100 % when it
is over. -/
def BrewRun.ReachesFull (run : BrewRun) : Prop :=
  (run.stages.map run.budget).sum = run.totalMs.toNat ∧
    ∀ (c : Core) (actions : List RampAction) (elapsedMs : UInt32), RampGuarded run c actions →
      (rampRun run c actions).pc = .done elapsedMs →
      (rampRun run c actions).core.brew.cancel = false →
        (rampRun run c actions).pushed.getLast?.map Status.progress = some 100

/-- A duration is shared out among the stages without remainder when this divides it. -/
def BrewRamp.unit (ramp : BrewRamp) : ℕ :=
  match ramp.category with
  | .espresso | .coffee | .americano => 10
  | .milkDrink => 5
  | .milkOnly | .water | .unknown => 1

theorem unit_dvd_iff {ramp : BrewRamp} (hramp : ramp ∈ RAMPS) (total : ℕ) :
    ramp.unit ∣ total ↔ ∀ w ∈ ramp.stages.map fun st => st.weight.toNat,
      (ramp.stages.map fun st => st.weight.toNat).sum ∣ total * w := by
  simp only [RAMPS, List.mem_cons, List.not_mem_nil, or_false] at hramp
  rcases hramp with rfl | rfl | rfl | rfl | rfl | rfl <;>
    simp [BrewRamp.unit, S_ESPRESSO, rampCoffee, S_COFFEE, S_AMERICANO, S_MILK_DRINK,
      S_MILK_ONLY, S_WATER] <;>
    omega

section

variable {run : BrewRun}

theorem stageTicks_eq_nil {start : ℕ} {stages : List BrewStage}
    (h : (stages.map run.budget).sum = 0) : stageTicks run start stages = [] := by
  induction stages generalizing start with
  | nil => rfl
  | cons st stages ih =>
      rw [List.map_cons, List.sum_cons] at h
      rw [stageTicks, ticksFrom_done (by omega), ih (by omega)]
      rfl

/-- The last tick of the schedule ends when the budgets are spent. -/
theorem getLast?_stageTicks (start : ℕ) {stages : List BrewStage}
    (h : 0 < (stages.map run.budget).sum) :
    (stageTicks run start stages).getLast?.map Prod.snd =
      some (start + (stages.map run.budget).sum) := by
  induction stages generalizing start with
  | nil => exact absurd h (by simp)
  | cons st stages ih =>
      rw [List.map_cons, List.sum_cons] at h ⊢
      rw [stageTicks, List.getLast?_append]
      by_cases hrest : 0 < (stages.map run.budget).sum
      · have hlast := ih (start + run.budget st) hrest
        obtain ⟨x, hx, hsnd⟩ := Option.map_eq_some_iff.mp hlast
        rw [hx, Option.some_or, Option.map_some, hsnd, Nat.add_assoc]
      · have hzero : (stages.map run.budget).sum = 0 := by omega
        rw [stageTicks_eq_nil hzero, List.getLast?_nil, Option.none_or, List.getLast?_map,
          getLast?_ticksFrom (by decide) (by omega), hzero]
        rfl

/-- The last progress of a ramp that nobody cancels. -/
theorem last_progress (h : run.Fits) (hsome : 0 < (run.stages.map run.budget).sum) {c : Core}
    {actions : List RampAction} {elapsedMs : UInt32} (hrun : RampGuarded run c actions)
    (hdone : (rampRun run c actions).pc = .done elapsedMs)
    (hcancel : (rampRun run c actions).core.brew.cancel = false) :
    (rampRun run c actions).pushed.getLast?.map Status.progress =
      some (Int16.ofNat ((run.stages.map run.budget).sum * 100 / run.totalMs.toNat)) := by
  have hwhole := ((rampShape_of_fits h c).complete hrun hdone hcancel).1
  have hlast := getLast?_stageTicks 0 hsome
  obtain ⟨x, hx, hsnd⟩ := Option.map_eq_some_iff.mp hlast
  rw [hwhole, rampStatuses, List.getLast?_map, hx, Option.map_some, Option.map_some, tickStatus,
    hsnd, Nat.zero_add]

/-- The budgets of a duration from 100 ms on are not all zero. -/
theorem budgets_pos (h : run.Fits) (hmin : 100 ≤ run.totalMs.toNat) :
    0 < (run.stages.map run.budget).sum := by
  have hlost := total_lt_shared_add_length run.totalMs.toNat h.weightSum.symm
    h.weightSum_pos
  have hlength := h.stages_spec.1
  rw [← h.budgets_eq, BrewRun.weights, List.length_map] at hlost
  omega

/-- 100 % is shown exactly when nothing is lost. -/
theorem percent_eq_hundred_iff (h : run.Fits) :
    Int16.ofNat ((run.stages.map run.budget).sum * 100 / run.totalMs.toNat) = 100 ↔
      (run.stages.map run.budget).sum = run.totalMs.toNat := by
  have hle := h.budgets_le
  have hpos := h.pos
  have hhundred : (100 : Int16).toInt = (100 : ℕ) := rfl
  rw [← Int16.toInt_inj, toInt_percent hle, hhundred, Int.natCast_inj]
  constructor
  · intro hpercent
    have hmul := Nat.div_mul_le_self ((run.stages.map run.budget).sum * 100) run.totalMs.toNat
    rw [hpercent] at hmul
    omega
  · intro hwhole
    rw [hwhole, Nat.mul_div_cancel_left 100 hpos]

end

/-- A brew reaches 100 % exactly when the budgets of its stages are not rounded: in tenths of
its duration for an espresso, a coffee or an americano, in fifths for a milk drink, and
always along a ramp of one stage. -/
theorem reachesFull_iff {ramp : BrewRamp} (hramp : ramp ∈ RAMPS) (totalMs : UInt32)
    (hmin : 100 ≤ totalMs.toNat) (hle : totalMs.toNat ≤ 42949672) (arg : BrewArg)
    (brewCode readyCode : Int16) :
    (BrewRun.ofRamp ramp totalMs arg brewCode readyCode).ReachesFull ↔
      ramp.unit ∣ totalMs.toNat := by
  have h := ofRamp_fits hramp (by omega : 1 ≤ totalMs.toNat) hle arg brewCode readyCode
  have hwhole : ((BrewRun.ofRamp ramp totalMs arg brewCode readyCode).stages.map
      (BrewRun.ofRamp ramp totalMs arg brewCode readyCode).budget).sum = totalMs.toNat ↔
        ramp.unit ∣ totalMs.toNat := by
    rw [h.budgets_eq, unit_dvd_iff hramp]
    have hshared := shared_eq_iff totalMs.toNat h.weightSum.symm h.weightSum_pos
    rw [h.weightSum] at hshared ⊢
    exact hshared
  refine ⟨fun hfull => hwhole.mp hfull.1, fun hunit => ⟨hwhole.mpr hunit, ?_⟩⟩
  intro c actions elapsedMs hrun hdone hcancel
  rw [last_progress h (budgets_pos h hmin) hrun hdone hcancel]
  exact congrArg some ((percent_eq_hundred_iff h).mpr (hwhole.mpr hunit))

/-- The ramp of an espresso with its own duration. -/
theorem reachesFull_espresso :
    (BrewRun.ofRamp ⟨.espresso, 20000, S_ESPRESSO⟩ 20000 ⟨0, none, false⟩ 4 3).ReachesFull :=
  (reachesFull_iff (by simp [RAMPS]) 20000 (by decide) (by decide) _ _ _).mpr (by decide)

/-- A new machine on which strength 1 and 41 ml have been written for an espresso. -/
def Core.smallEspresso : Core :=
  (nivonaBrewStart (Machine.factoryFresh.core.onStorage fun s =>
    nivonaStoreSetNum (nivonaStoreSetNum s 9002 1) 9006 41) 0 false).1

/-- That espresso takes 11787 ms, of which its stages get 11786, and ends at 99 %. -/
theorem smallEspresso_stops_short : (brewRun Core.smallEspresso).totalMs = 11787 ∧
    ¬(brewRun Core.smallEspresso).ReachesFull ∧
    ∀ (actions : List RampAction) (elapsedMs : UInt32),
      RampGuarded (brewRun Core.smallEspresso) Core.smallEspresso actions →
      (rampRun (brewRun Core.smallEspresso) Core.smallEspresso actions).pc = .done elapsedMs →
      (rampRun (brewRun Core.smallEspresso) Core.smallEspresso actions).core.brew.cancel =
        false →
      (rampRun (brewRun Core.smallEspresso) Core.smallEspresso actions).pushed.getLast?.map
        Status.progress = some 99 := by
  have hrun : brewRun Core.smallEspresso =
      .ofRamp ⟨.espresso, 20000, S_ESPRESSO⟩ 11787 ⟨0, some ⟨0, .espresso⟩, false⟩ 4 3 := by
    decide +kernel
  generalize Core.smallEspresso = c at hrun ⊢
  rw [hrun]
  generalize hlocals : BrewRun.ofRamp ⟨.espresso, 20000, S_ESPRESSO⟩ 11787
    ⟨0, some ⟨0, .espresso⟩, false⟩ 4 3 = run
  have hfits : run.Fits := hlocals ▸ ofRamp_fits (by simp [RAMPS]) (by decide) (by decide) _ _ _
  have hsum : (run.stages.map run.budget).sum = 11786 := by
    rw [← hlocals]
    decide
  have htotal : run.totalMs = 11787 := by rw [← hlocals]; rfl
  refine ⟨htotal, fun hfull => ?_, fun actions elapsedMs hguard hdone hcancel => ?_⟩
  · have hwhole := hfull.1
    rw [hsum, htotal] at hwhole
    exact absurd hwhole (by decide)
  · rw [last_progress hfits (by rw [hsum]; decide) hguard hdone hcancel, hsum, htotal]
    rfl

end Nivona
