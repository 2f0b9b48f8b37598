import NivonaEmulator.Brew
import NivonaEmulator.Lib.Runs
import NivonaEmulator.Lib.Shares
import NivonaEmulator.Lib.Ticks
import NivonaEmulator.System

/-!
# The brew ramp

The stage and tick loops of `brew_task`, with the delay of a tick as a program
point of its own, so that a cancel can fall into it.  The rest of the program
runs between any two steps; it may cancel the brew and do whatever it likes to
everything but the status.
-/

namespace Nivona

open Shares Ticks

/-- Program points of the ramp; `done` is where the machine is back to READY. -/
inductive RampPc
  /-- at the test of the stage loop -/
  | stage (i : ℕ) (elapsedMs : UInt32)
  /-- at the test of the tick loop of stage `i` -/
  | tick (i : ℕ) (stageElapsed elapsedMs : UInt32)
  /-- in the delay of a tick -/
  | delay (i : ℕ) (stageElapsed elapsedMs step : UInt32)
  /-- after the loops -/
  | ready (elapsedMs : UInt32)
  | done (elapsedMs : UInt32)

/-- The ramp, with the statuses its ticks have pushed and the time it has slept. -/
structure RampState where
  core : Core
  pc : RampPc
  pushed : List Status
  slept : ℕ

/-- One step of the ramp. -/
def rampStep (run : BrewRun) (s : RampState) : RampState :=
  match s.pc with
  | .stage i elapsedMs =>
      match run.stages[i]?, s.core.brew.cancel with
      | some st, false =>
          let c := s.core.onDevice fun d => consumeStage d st.sub
          { s with
            core := nivonaFsmSetProcess c run.brewCode st.sub.code
            pc := .tick i 0 elapsedMs }
      | _, _ => { s with pc := .ready elapsedMs }
  | .tick i stageElapsed elapsedMs =>
      match run.stages[i]? with
      | none => { s with pc := .ready elapsedMs }
      | some st =>
          if stageElapsed < stageMs run st ∧ s.core.brew.cancel = false then
            let step := min (stageMs run st - stageElapsed) TICK_MS
            { s with
              pc := .delay i stageElapsed elapsedMs step
              slept := s.slept + step.toNat }
          else { s with pc := .stage (i + 1) elapsedMs }
  | .delay i stageElapsed elapsedMs step =>
      let elapsedMs := elapsedMs + step
      let c := nivonaFsmSetProgress s.core (progressPct elapsedMs run.totalMs)
      { s with
        core := c
        pc := .tick i (stageElapsed + step) elapsedMs
        pushed := s.pushed ++ [c.status] }
  | .ready elapsedMs =>
      let c := nivonaFsmSetProcess s.core run.readyCode 0
      { s with
        core := nivonaFsmSetProgress c 0
        pc := .done elapsedMs }
  | .done _ => s

/-- What can happen while a ramp runs. -/
inductive RampAction
  | task
  | others (c : Core)

/-- The others leave the status alone, and never take a cancel back. -/
def RampAllowed (s : RampState) : RampAction → Prop
  | .task => True
  | .others c => c.status = s.core.status ∧ (s.core.brew.cancel = true → c.brew.cancel = true)

def rampMove (run : BrewRun) (s : RampState) : RampAction → RampState
  | .task => rampStep run s
  | .others c => { s with core := c }

/-- Where the ramp starts. -/
def rampStart (c : Core) : RampState where
  core := c
  pc := .stage 0 0
  pushed := []
  slept := 0

/-- A run of the ramp from where it starts. -/
abbrev RampGuarded (run : BrewRun) (c : Core) : List RampAction → Prop :=
  Runs.Guarded (rampMove run) RampAllowed (rampStart c)

abbrev rampRun (run : BrewRun) (c : Core) (actions : List RampAction) : RampState :=
  Runs.run (rampMove run) (rampStart c) actions

/-- The weights of the stages. -/
def BrewRun.weights (run : BrewRun) : List ℕ := run.stages.map fun st => st.weight.toNat

/-- The locals of a task that brews along a ramp. -/
def BrewRun.ofRamp (ramp : BrewRamp) (totalMs : UInt32) (arg : BrewArg)
    (brewCode readyCode : Int16) : BrewRun :=
  let weights := ramp.stages.foldl (fun sum st => sum + st.weight.toUInt32) 0
  { arg := arg
    brewCode := brewCode
    readyCode := readyCode
    stages := ramp.stages
    totalMs := totalMs
    weightSum := if weights = 0 then 1 else weights }

/-- The stages are those of a ramp, and the products of the loops fit their type. -/
structure BrewRun.Fits (run : BrewRun) : Prop where
  ramp : ∃ ramp ∈ RAMPS, run.stages = ramp.stages
  weightSum : run.weightSum.toNat = run.weights.sum
  pos : 1 ≤ run.totalMs.toNat
  le : run.totalMs.toNat ≤ 42949672

/-! ## The schedule -/

/-- Milliseconds of a stage. -/
def BrewRun.budget (run : BrewRun) (st : BrewStage) : ℕ := (stageMs run st).toNat

/-- Milliseconds of the first stages. -/
def BrewRun.before (run : BrewRun) (i : ℕ) : ℕ := ((run.stages.take i).map run.budget).sum

/-- The ticks of some stages that start after `start` milliseconds: the stage, and the time
elapsed when its delay is over. -/
def stageTicks (run : BrewRun) : ℕ → List BrewStage → List (BrewStage × ℕ)
  | _, [] => []
  | start, st :: stages =>
      (ticksFrom TICK_MS.toNat (run.budget st) 0).map (fun t => (st, start + t)) ++
        stageTicks run (start + run.budget st) stages

/-- The status that a tick pushes. -/
def tickStatus (run : BrewRun) (s : Status) (tick : BrewStage × ℕ) : Status :=
  { s with
    process := run.brewCode
    subProcess := tick.1.sub.code
    progress := Int16.ofNat (tick.2 * 100 / run.totalMs.toNat) }

/-- The statuses of a whole ramp. -/
def rampStatuses (run : BrewRun) (s : Status) : List Status :=
  (stageTicks run 0 run.stages).map (tickStatus run s)

namespace BrewRun.Fits

variable {run : BrewRun}

/-- At most three stages, of weights that add up to ten. -/
theorem stages_spec (h : run.Fits) :
    run.stages.length ≤ 3 ∧ (∀ st ∈ run.stages, st.weight.toNat ≤ 10) ∧
      (run.stages.map fun st => st.weight.toNat).sum = 10 := by
  have hall : ∀ ramp ∈ RAMPS, ramp.stages.length ≤ 3 ∧
      (∀ st ∈ ramp.stages, st.weight.toNat ≤ 10) ∧
        (ramp.stages.map fun st => st.weight.toNat).sum = 10 := by
    decide
  obtain ⟨ramp, hramp, hstages⟩ := h.ramp
  rw [hstages]
  exact hall ramp hramp

theorem weightSum_pos (h : run.Fits) : 0 < run.weightSum.toNat := by
  have hsum := h.stages_spec.2.2
  rw [h.weightSum, BrewRun.weights]
  omega

theorem weight_le (h : run.Fits) {st : BrewStage} (hst : st ∈ run.stages) :
    st.weight.toNat ≤ 10 :=
  h.stages_spec.2.1 st hst

/-- The budget of a stage is its share of the total. -/
theorem budget_eq (h : run.Fits) {st : BrewStage} (hst : st ∈ run.stages) :
    run.budget st = share run.totalMs.toNat run.weightSum.toNat st.weight.toNat := by
  have hweight := h.weight_le hst
  have hle := h.le
  have hfit : run.totalMs.toNat * st.weight.toNat < 2 ^ 32 := by
    calc run.totalMs.toNat * st.weight.toNat ≤ 42949672 * 10 := Nat.mul_le_mul hle hweight
      _ < 2 ^ 32 := by norm_num
  rw [BrewRun.budget, stageMs, UInt32.toNat_div, UInt32.toNat_mul, UInt8.toNat_toUInt32,
    Nat.mod_eq_of_lt hfit, share]

theorem budgets_eq (h : run.Fits) : (run.stages.map run.budget).sum =
    shared run.totalMs.toNat run.weightSum.toNat run.weights := by
  rw [shared, BrewRun.weights, List.map_map]
  exact congrArg List.sum (List.map_congr_left fun st hst => h.budget_eq hst)

theorem budgets_le (h : run.Fits) : (run.stages.map run.budget).sum ≤ run.totalMs.toNat := by
  rw [h.budgets_eq]
  exact shared_le _ h.weightSum.symm h.weightSum_pos

end BrewRun.Fits

namespace BrewRun

theorem before_le_budgets (run : BrewRun) (i : ℕ) :
    run.before i ≤ (run.stages.map run.budget).sum := by
  rw [before, List.map_take]
  exact List.Sublist.sum_le_sum (List.take_sublist _ _) fun _ _ => Nat.zero_le _

theorem before_eq_budgets (run : BrewRun) {i : ℕ} (h : run.stages[i]? = none) :
    run.before i = (run.stages.map run.budget).sum := by
  rw [before, List.take_of_length_le (List.getElem?_eq_none_iff.mp h)]

theorem before_succ {run : BrewRun} {i : ℕ} {st : BrewStage} (h : run.stages[i]? = some st) :
    run.before (i + 1) = run.before i + run.budget st := by
  rw [before, before, List.take_add_one, h]
  simp

end BrewRun

theorem percent_le {elapsed total : ℕ} (h : elapsed ≤ total) : elapsed * 100 / total ≤ 100 := by
  refine Nat.div_le_of_le_mul ?_
  exact Nat.mul_le_mul_right 100 h

theorem toInt_percent {elapsed total : ℕ} (h : elapsed ≤ total) :
    (Int16.ofNat (elapsed * 100 / total)).toInt = (elapsed * 100 / total : ℕ) := by
  have hle := percent_le h
  exact Int16.toInt_ofNat_of_lt (by omega)

/-- Up to the total, the percentage is that of the exact quotient. -/
theorem progressPct_eq {elapsedMs totalMs : UInt32} (hle : totalMs.toNat ≤ 42949672)
    (h : elapsedMs.toNat ≤ totalMs.toNat) :
    progressPct elapsedMs totalMs = Int16.ofNat (elapsedMs.toNat * 100 / totalMs.toNat) := by
  have hpercent := percent_le h
  have hhundred : (100 : UInt32).toNat = 100 := rfl
  have hvalue : elapsedMs * 100 / totalMs =
      UInt32.ofNat (elapsedMs.toNat * 100 / totalMs.toNat) := by
    rw [← UInt32.toNat_inj, UInt32.toNat_div, UInt32.toNat_mul, UInt32.toNat_ofNat', hhundred,
      Nat.mod_eq_of_lt (by omega), Nat.mod_eq_of_lt (by omega)]
  have hbelow : ¬ Int16.ofNat (elapsedMs.toNat * 100 / totalMs.toNat) > 100 := by
    have hhundred16 : (100 : Int16).toInt = 100 := rfl
    rw [gt_iff_lt, Int16.lt_iff_toInt_lt, toInt_percent h, hhundred16]
    omega
  rw [progressPct, hvalue, UInt32.toUInt16_ofNat', UInt16.toInt16_ofNat']
  exact if_neg hbelow

/-! ## Time -/

/-- What the variables of the loops hold at a program point. -/
def RampPc.Timely (run : BrewRun) (cancel : Bool) (slept : ℕ) : RampPc → Prop
  | .stage i elapsedMs =>
      elapsedMs.toNat ≤ run.before i ∧ (cancel = false → elapsedMs.toNat = run.before i) ∧
        slept = elapsedMs.toNat
  | .tick i stageElapsed elapsedMs => ∃ st, run.stages[i]? = some st ∧
      stageElapsed.toNat ≤ run.budget st ∧
      elapsedMs.toNat = run.before i + stageElapsed.toNat ∧ slept = elapsedMs.toNat
  | .delay i stageElapsed elapsedMs step => ∃ st, run.stages[i]? = some st ∧
      stageElapsed.toNat < run.budget st ∧
      step.toNat = min (run.budget st - stageElapsed.toNat) TICK_MS.toNat ∧
      elapsedMs.toNat = run.before i + stageElapsed.toNat ∧ slept = elapsedMs.toNat + step.toNat
  | .ready elapsedMs | .done elapsedMs =>
      elapsedMs.toNat ≤ (run.stages.map run.budget).sum ∧
        (cancel = false → elapsedMs.toNat = (run.stages.map run.budget).sum) ∧
        slept = elapsedMs.toNat

/-- The step of a tick, as numbers. -/
theorem toNat_step {run : BrewRun} {st : BrewStage} {stageElapsed : UInt32}
    (h : stageElapsed.toNat < run.budget st) :
    (min (stageMs run st - stageElapsed) TICK_MS).toNat =
      min (run.budget st - stageElapsed.toNat) TICK_MS.toNat := by
  have hle : stageElapsed ≤ stageMs run st := by
    rw [UInt32.le_iff_toNat_le]
    exact Nat.le_of_lt h
  have hsub := UInt32.toNat_sub_of_le _ _ hle
  have hmin : min (stageMs run st - stageElapsed) TICK_MS =
      if stageMs run st - stageElapsed ≤ TICK_MS then stageMs run st - stageElapsed
      else TICK_MS := rfl
  rw [hmin, BrewRun.budget, ← hsub, min_def, apply_ite UInt32.toNat]
  simp only [UInt32.le_iff_toNat_le]

section

variable {run : BrewRun}

theorem rampStep_timely (h : run.Fits) {s : RampState}
    (hs : s.pc.Timely run s.core.brew.cancel s.slept) :
    (rampStep run s).pc.Timely run (rampStep run s).core.brew.cancel (rampStep run s).slept := by
  obtain ⟨c, pc, pushed, slept⟩ := s
  have htotal := h.budgets_le
  have hword := run.totalMs.toNat_lt
  cases pc with
  | stage i elapsedMs =>
      obtain ⟨hle, heq, hslept⟩ := hs
      simp only [rampStep]
      split
      · rename_i st hst hcancel
        exact ⟨st, hst, Nat.zero_le _, by simpa using heq hcancel, hslept⟩
      · rename_i hnot
        have hbudgets := run.before_le_budgets i
        refine ⟨hle.trans hbudgets, fun hcancel => ?_, hslept⟩
        have hnone : run.stages[i]? = none :=
          Option.eq_none_iff_forall_ne_some.mpr fun st hst => hnot st hst hcancel
        rw [← run.before_eq_budgets hnone]
        exact heq hcancel
  | tick i stageElapsed elapsedMs =>
      obtain ⟨st, hst, hle, helapsed, hslept⟩ := hs
      simp only [rampStep, hst]
      split
      · rename_i hgo
        have hlt : stageElapsed.toNat < run.budget st := UInt32.lt_iff_toNat_lt.mp hgo.1
        exact ⟨st, hst, hlt, toNat_step hlt, helapsed, congrArg (· + _) hslept⟩
      · rename_i hstop
        have hsucc := BrewRun.before_succ hst
        refine ⟨by omega, fun hcancel => ?_, hslept⟩
        have hge : ¬ stageElapsed.toNat < run.budget st := fun hlt =>
          hstop ⟨UInt32.lt_iff_toNat_lt.mpr hlt, hcancel⟩
        omega
  | delay i stageElapsed elapsedMs step =>
      obtain ⟨st, hst, hlt, hstep, helapsed, hslept⟩ := hs
      have hsucc := BrewRun.before_succ hst
      have hbudgets := run.before_le_budgets (i + 1)
      have hstage : (stageElapsed + step).toNat = stageElapsed.toNat + step.toNat := by
        rw [UInt32.toNat_add, Nat.mod_eq_of_lt (by omega)]
      have hwhole : (elapsedMs + step).toNat = elapsedMs.toNat + step.toNat := by
        rw [UInt32.toNat_add, Nat.mod_eq_of_lt (by omega)]
      exact ⟨st, hst, by omega, by omega, by rw [hwhole]; exact hslept⟩
  | ready elapsedMs => exact hs
  | done elapsedMs => exact hs

/-- Of the cancel flag, only more than is needed is known after the others have run. -/
theorem RampPc.Timely.mono {pc : RampPc} {cancel cancel' : Bool} {slept : ℕ}
    (h : pc.Timely run cancel slept) (hcancel : cancel = true → cancel' = true) :
    pc.Timely run cancel' slept := by
  have hfalse : cancel' = false → cancel = false := fun h' => by
    cases cancel with
    | false => rfl
    | true => exact absurd (hcancel rfl) (by simp [h'])
  cases pc with
  | stage i elapsedMs => exact ⟨h.1, fun h' => h.2.1 (hfalse h'), h.2.2⟩
  | tick i stageElapsed elapsedMs => exact h
  | delay i stageElapsed elapsedMs step => exact h
  | ready elapsedMs => exact ⟨h.1, fun h' => h.2.1 (hfalse h'), h.2.2⟩
  | done elapsedMs => exact ⟨h.1, fun h' => h.2.1 (hfalse h'), h.2.2⟩

theorem rampMove_timely (h : run.Fits) {s : RampState} {a : RampAction} (ha : RampAllowed s a)
    (hs : s.pc.Timely run s.core.brew.cancel s.slept) :
    (rampMove run s a).pc.Timely run (rampMove run s a).core.brew.cancel
      (rampMove run s a).slept := by
  cases a with
  | task => exact rampStep_timely h hs
  | others c => exact hs.mono ha.2

/-- No more time than the total has been slept. -/
theorem RampPc.Timely.slept_le {pc : RampPc} {cancel : Bool} {slept : ℕ}
    (hs : pc.Timely run cancel slept) : slept ≤ (run.stages.map run.budget).sum := by
  cases pc with
  | stage i elapsedMs =>
      have hbudgets := run.before_le_budgets i
      exact (hs.2.2.le.trans hs.1).trans hbudgets
  | tick i stageElapsed elapsedMs =>
      obtain ⟨st, hst, hle, helapsed, hslept⟩ := hs
      have hbudgets := run.before_le_budgets (i + 1)
      have hsucc := BrewRun.before_succ hst
      omega
  | delay i stageElapsed elapsedMs step =>
      obtain ⟨st, hst, hlt, hstep, helapsed, hslept⟩ := hs
      have hbudgets := run.before_le_budgets (i + 1)
      have hsucc := BrewRun.before_succ hst
      omega
  | ready elapsedMs => exact hs.2.2.le.trans hs.1
  | done elapsedMs => exact hs.2.2.le.trans hs.1

end

/-! ## Pushes -/

/-- The ticks of the schedule that are still to come. -/
def RampPc.remaining (run : BrewRun) : RampPc → List (BrewStage × ℕ)
  | .stage i _ => stageTicks run (run.before i) (run.stages.drop i)
  | .tick i stageElapsed _ | .delay i stageElapsed _ _ =>
      match run.stages[i]? with
      | none => []
      | some st =>
          (ticksFrom TICK_MS.toNat (run.budget st) stageElapsed.toNat).map
              (fun t => (st, run.before i + t)) ++
            stageTicks run (run.before (i + 1)) (run.stages.drop (i + 1))
  | .ready _ | .done _ => []

/-- Inside the tick loop, from where a tick may be under way. -/
def RampPc.Inside : RampPc → Prop
  | .tick .. | .delay .. => True
  | _ => False

/-- What the status shows at a program point, when it was `s` before the ramp. -/
def RampPc.Shows (run : BrewRun) (s now : Status) : RampPc → Prop
  | .tick i .. | .delay i .. => ∃ st, run.stages[i]? = some st ∧
      now = { s with
        process := run.brewCode
        subProcess := st.sub.code
        progress := now.progress }
  | .done _ => now = { s with process := run.readyCode, subProcess := 0, progress := 0 }
  | _ => now.info = s.info ∧ now.manipulation = s.manipulation

/-- What has been pushed is a part of the schedule, and what is to come is the rest of it. -/
structure RampState.Accounted (run : BrewRun) (s : Status) (r : RampState) : Prop where
  shows : r.pc.Shows run s r.core.status
  pushed : r.pushed <+: rampStatuses run s
  rest : r.pc.Inside ∨ r.core.brew.cancel = false →
    r.pushed ++ (r.pc.remaining run).map (tickStatus run s) = rampStatuses run s

section

variable {run : BrewRun} {s : Status}

theorem stageTicks_drop {i : ℕ} {st : BrewStage} (hst : run.stages[i]? = some st) :
    stageTicks run (run.before i) (run.stages.drop i) =
      (ticksFrom TICK_MS.toNat (run.budget st) 0).map (fun t => (st, run.before i + t)) ++
        stageTicks run (run.before (i + 1)) (run.stages.drop (i + 1)) := by
  obtain ⟨hi, hget⟩ := List.getElem?_eq_some_iff.mp hst
  rw [List.drop_eq_getElem_cons hi, hget, stageTicks, BrewRun.before_succ hst]

theorem rampStart_accounted (c : Core) : (rampStart c).Accounted run c.status where
  shows := ⟨rfl, rfl⟩
  pushed := List.nil_prefix
  rest := fun _ => rfl

theorem RampPc.Shows.kept {pc : RampPc} {now : Status} (h : pc.Shows run s now) :
    now.info = s.info ∧ now.manipulation = s.manipulation := by
  cases pc with
  | stage i elapsedMs => exact h
  | tick i stageElapsed elapsedMs =>
      obtain ⟨st, -, hnow⟩ := h
      rw [hnow]
      exact ⟨rfl, rfl⟩
  | delay i stageElapsed elapsedMs step =>
      obtain ⟨st, -, hnow⟩ := h
      rw [hnow]
      exact ⟨rfl, rfl⟩
  | ready elapsedMs => exact h
  | done elapsedMs =>
      rw [show now = _ from h]
      exact ⟨rfl, rfl⟩

/-- The tick whose delay is over is the next of the schedule. -/
theorem remaining_delay {i : ℕ} {st : BrewStage} {stageElapsed elapsedMs step : UInt32}
    (hst : run.stages[i]? = some st) (hlt : stageElapsed.toNat < run.budget st)
    (hstep : step.toNat = min (run.budget st - stageElapsed.toNat) TICK_MS.toNat)
    (hfit : run.budget st < 2 ^ 32) :
    (RampPc.delay i stageElapsed elapsedMs step).remaining run =
      (st, run.before i + stageElapsed.toNat + step.toNat) ::
        (RampPc.tick i (stageElapsed + step) (elapsedMs + step)).remaining run := by
  have hpos : 0 < TICK_MS.toNat := by decide
  have hnext : (stageElapsed + step).toNat = stageElapsed.toNat + step.toNat := by
    rw [UInt32.toNat_add, Nat.mod_eq_of_lt (by omega)]
  simp only [RampPc.remaining, hst]
  rw [ticksFrom_of_lt hpos hlt, ← hstep, List.map_cons, List.cons_append, hnext, Nat.add_assoc]

/-- The status that the end of a delay leaves is that of its tick. -/
theorem status_after_delay (h : run.Fits) {c : Core} {i : ℕ} {st : BrewStage}
    {stageElapsed elapsedMs step : UInt32} (hst : run.stages[i]? = some st)
    (hbudget : stageElapsed.toNat + step.toNat ≤ run.budget st)
    (helapsed : elapsedMs.toNat = run.before i + stageElapsed.toNat)
    (hnow : c.status = { s with
      process := run.brewCode
      subProcess := st.sub.code
      progress := c.status.progress }) :
    (nivonaFsmSetProgress c (progressPct (elapsedMs + step) run.totalMs)).status =
      tickStatus run s (st, run.before i + stageElapsed.toNat + step.toNat) := by
  have hword := run.totalMs.toNat_lt
  have htotal := h.budgets_le
  have hbudgets := run.before_le_budgets (i + 1)
  have hsucc := BrewRun.before_succ hst
  have hwhole : (elapsedMs + step).toNat = run.before i + stageElapsed.toNat + step.toNat := by
    rw [UInt32.toNat_add, Nat.mod_eq_of_lt (by omega), helapsed]
  have hpct := progressPct_eq h.le
    (show (elapsedMs + step).toNat ≤ run.totalMs.toNat by omega)
  rw [nivonaFsmSetProgress, hpct, hwhole, hnow]
  rfl

theorem rampStep_accounted (h : run.Fits) {r : RampState}
    (htime : r.pc.Timely run r.core.brew.cancel r.slept) (hr : r.Accounted run s) :
    (rampStep run r).Accounted run s := by
  obtain ⟨hshows, hpushed, hrest⟩ := hr
  obtain ⟨c, pc, pushed, slept⟩ := r
  have hkept := hshows.kept
  cases pc with
  | stage i elapsedMs =>
      simp only [rampStep]
      split
      · rename_i st hst hcancel
        refine ⟨⟨st, hst, ?_⟩, hpushed, fun _ => ?_⟩
        · rw [← hkept.1, ← hkept.2]
          rfl
        · have hall := hrest (.inr hcancel)
          simp only [RampPc.remaining, hst, stageTicks_drop hst] at hall ⊢
          exact hall
      · rename_i hnot
        refine ⟨hkept, hpushed, fun hcase => ?_⟩
        have hcancel : c.brew.cancel = false := hcase.resolve_left id
        have hall := hrest (.inr hcancel)
        have hnone : run.stages[i]? = none :=
          Option.eq_none_iff_forall_ne_some.mpr fun st hst => hnot st hst hcancel
        rw [RampPc.remaining, List.drop_eq_nil_of_le (List.getElem?_eq_none_iff.mp hnone)] at hall
        exact hall
  | tick i stageElapsed elapsedMs =>
      obtain ⟨st, hst, hle, -, -⟩ := htime
      have hall := hrest (.inl trivial)
      simp only [rampStep, hst]
      split
      · exact ⟨hshows, hpushed, fun _ => hall⟩
      · rename_i hstop
        refine ⟨hkept, hpushed, fun hcase => ?_⟩
        have hcancel : c.brew.cancel = false := hcase.resolve_left id
        have hge : run.budget st ≤ stageElapsed.toNat := Nat.le_of_not_lt fun hlt =>
          hstop ⟨UInt32.lt_iff_toNat_lt.mpr hlt, hcancel⟩
        simp only [RampPc.remaining, hst, ticksFrom_done hge, List.map_nil, List.nil_append] at hall
        exact hall
  | delay i stageElapsed elapsedMs step =>
      obtain ⟨st, hst, hlt, hstep, helapsed, hslept⟩ := htime
      obtain ⟨st', hst', hnow⟩ := hshows
      obtain rfl : st = st' := Option.some.inj (hst.symm.trans hst')
      have hword := run.totalMs.toNat_lt
      have htotal := h.budgets_le
      have hbudgets := run.before_le_budgets (i + 1)
      have hsucc := BrewRun.before_succ hst
      have hbudget : stageElapsed.toNat + step.toNat ≤ run.budget st := by omega
      have hstatus := status_after_delay h hst hbudget helapsed hnow
      have hall := hrest (.inl trivial)
      rw [remaining_delay hst hlt hstep (by omega), List.map_cons, ← hstatus,
        List.append_cons] at hall
      refine ⟨⟨st, hst, ?_⟩, ⟨_, hall⟩, fun _ => hall⟩
      change (nivonaFsmSetProgress c (progressPct (elapsedMs + step) run.totalMs)).status =
        { s with
          process := run.brewCode
          subProcess := st.sub.code
          progress := (nivonaFsmSetProgress c _).status.progress }
      rw [hstatus]
      rfl
  | ready elapsedMs =>
      refine ⟨?_, hpushed, fun hcase => hrest (.inr (hcase.resolve_left id))⟩
      change (nivonaFsmSetProgress (nivonaFsmSetProcess c run.readyCode 0) 0).status = _
      rw [← hkept.1, ← hkept.2]
      rfl
  | done elapsedMs => exact ⟨hshows, hpushed, hrest⟩

theorem rampMove_accounted (h : run.Fits) {r : RampState} {a : RampAction}
    (ha : RampAllowed r a) (htime : r.pc.Timely run r.core.brew.cancel r.slept)
    (hr : r.Accounted run s) : (rampMove run r a).Accounted run s := by
  cases a with
  | task => exact rampStep_accounted h htime hr
  | others c =>
      obtain ⟨hstatus, hcancel⟩ := ha
      refine ⟨?_, hr.pushed, fun hcase => hr.rest (hcase.imp_right fun hfalse => ?_)⟩
      · change r.pc.Shows run s c.status
        rw [hstatus]
        exact hr.shows
      · cases hflag : r.core.brew.cancel with
        | false => rfl
        | true => exact absurd (hcancel hflag) (by simp [show c.brew.cancel = false from hfalse])

end

/-! ## The schedule as a whole -/

section

variable {run : BrewRun}

/-- A tick of the schedule belongs to one of the stages, and ends within their budgets. -/
theorem mem_stageTicks {start : ℕ} {stages : List BrewStage} {x : BrewStage × ℕ}
    (hx : x ∈ stageTicks run start stages) :
    start < x.2 ∧ x.2 ≤ start + (stages.map run.budget).sum := by
  induction stages generalizing start with
  | nil => cases hx
  | cons st stages ih =>
      rw [stageTicks, List.mem_append, List.mem_map] at hx
      rw [List.map_cons, List.sum_cons]
      rcases hx with ⟨t, ht, rfl⟩ | hlater
      · have htime := lt_of_mem_ticksFrom ht
        dsimp only
        omega
      · have htime := ih hlater
        omega

/-- Time passes from each tick of the schedule to the next. -/
theorem pairwise_stageTicks (run : BrewRun) (start : ℕ) (stages : List BrewStage) :
    (stageTicks run start stages).Pairwise fun x y => x.2 < y.2 := by
  induction stages generalizing start with
  | nil => exact List.Pairwise.nil
  | cons st stages ih =>
      rw [stageTicks, List.pairwise_append]
      refine ⟨?_, ih _, ?_⟩
      · rw [List.pairwise_map]
        exact (pairwise_ticksFrom _ _ _).imp fun h => Nat.add_lt_add_left h start
      · intro x hx y hy
        obtain ⟨t, ht, rfl⟩ := List.mem_map.mp hx
        have hlater := (mem_stageTicks hy).1
        have htime := (lt_of_mem_ticksFrom ht).2
        dsimp only
        omega

/-- How many ticks a stage has. -/
def BrewRun.tickCount (run : BrewRun) (st : BrewStage) : ℕ :=
  (ticksFrom TICK_MS.toNat (run.budget st) 0).length

/-- The stages of the schedule, in their order, each as often as it has ticks. -/
theorem stageTicks_stages (run : BrewRun) (start : ℕ) (stages : List BrewStage) :
    (stageTicks run start stages).map Prod.fst =
      stages.flatMap fun st => List.replicate (run.tickCount st) st := by
  induction stages generalizing start with
  | nil => rfl
  | cons st stages ih =>
      rw [stageTicks, List.map_append, ih, List.map_map, List.flatMap_cons, BrewRun.tickCount]
      congr 1
      exact List.map_const'

/-- A stage without budget has no tick. -/
theorem tickCount_eq_zero_iff (run : BrewRun) (st : BrewStage) :
    run.tickCount st = 0 ↔ stageMs run st = 0 := by
  rw [BrewRun.tickCount, List.length_eq_zero_iff, ticksFrom_eq_nil_iff (by decide),
    Nat.le_zero, BrewRun.budget, ← UInt32.toNat_inj]
  rfl

theorem rampStatuses_subProcess (run : BrewRun) (s : Status) :
    (rampStatuses run s).map Status.subProcess =
      run.stages.flatMap fun st => List.replicate (run.tickCount st) st.sub.code := by
  have hstages := congrArg (List.map fun st : BrewStage => st.sub.code)
    (stageTicks_stages run 0 run.stages)
  simp only [List.map_map, List.map_flatMap, List.map_replicate] at hstages
  rw [rampStatuses, List.map_map]
  exact hstages

theorem toInt_tickStatus_progress (h : run.Fits) (s : Status) {x : BrewStage × ℕ}
    (hx : x ∈ stageTicks run 0 run.stages) :
    (tickStatus run s x).progress.toInt = (x.2 * 100 / run.totalMs.toNat : ℕ) := by
  have htime := (mem_stageTicks hx).2
  exact toInt_percent ((htime.trans (Nat.zero_add _).le).trans h.budgets_le)

/-- The schedule shows the brewing code, and a percentage. -/
theorem mem_rampStatuses (h : run.Fits) {s p : Status} (hp : p ∈ rampStatuses run s) :
    p.process = run.brewCode ∧ 0 ≤ p.progress.toInt ∧ p.progress.toInt ≤ 100 := by
  obtain ⟨x, hx, rfl⟩ := List.mem_map.mp hp
  have htime := (mem_stageTicks hx).2
  have hpercent := percent_le ((htime.trans (Nat.zero_add _).le).trans h.budgets_le)
  rw [toInt_tickStatus_progress h s hx]
  exact ⟨rfl, Int.natCast_nonneg _, by exact_mod_cast hpercent⟩

/-- The percentage never falls. -/
theorem pairwise_rampStatuses (h : run.Fits) (s : Status) :
    (rampStatuses run s).Pairwise fun p q => p.progress.toInt ≤ q.progress.toInt := by
  rw [rampStatuses, List.pairwise_map]
  refine (pairwise_stageTicks run 0 run.stages).imp_of_mem fun hx hy hlt => ?_
  rw [toInt_tickStatus_progress h s hx, toInt_tickStatus_progress h s hy]
  exact_mod_cast Nat.div_le_div_right (Nat.mul_le_mul_right 100 hlt.le)

end

/-! ## Termination -/

/-- An upper bound on the steps that are left. -/
def RampPc.steps (run : BrewRun) : RampPc → ℕ
  | .stage i _ =>
      2 * ((run.stages.drop i).map run.budget).sum + 2 * (run.stages.drop i).length + 2
  | .tick i stageElapsed _ =>
      2 * ((run.stages.drop i).map run.budget).sum + 2 * (run.stages.drop i).length + 1 -
        2 * stageElapsed.toNat
  | .delay i stageElapsed _ _ =>
      2 * ((run.stages.drop i).map run.budget).sum + 2 * (run.stages.drop i).length -
        2 * stageElapsed.toNat
  | .ready _ => 1
  | .done _ => 0

section

variable {run : BrewRun}

theorem budgets_drop {i : ℕ} {st : BrewStage} (hst : run.stages[i]? = some st) :
    ((run.stages.drop i).map run.budget).sum =
      run.budget st + ((run.stages.drop (i + 1)).map run.budget).sum ∧
    (run.stages.drop i).length = (run.stages.drop (i + 1)).length + 1 := by
  obtain ⟨hi, hget⟩ := List.getElem?_eq_some_iff.mp hst
  rw [List.drop_eq_getElem_cons hi, hget, List.map_cons, List.sum_cons, List.length_cons]
  exact ⟨rfl, rfl⟩

/-- Every step of the task brings its end closer. -/
theorem rampStep_steps (h : run.Fits) {r : RampState}
    (htime : r.pc.Timely run r.core.brew.cancel r.slept) :
    (rampStep run r).pc.steps run ≤ r.pc.steps run - 1 := by
  obtain ⟨c, pc, pushed, slept⟩ := r
  cases pc with
  | stage i elapsedMs =>
      simp only [rampStep]
      split
      · simp only [RampPc.steps]
        omega
      · simp only [RampPc.steps]
        omega
  | tick i stageElapsed elapsedMs =>
      obtain ⟨st, hst, hle, -, -⟩ := htime
      have hdrop := budgets_drop hst
      simp only [rampStep, hst]
      split
      · simp only [RampPc.steps]
        omega
      · simp only [RampPc.steps]
        omega
  | delay i stageElapsed elapsedMs step =>
      obtain ⟨st, hst, hlt, hstep, -, -⟩ := htime
      have hdrop := budgets_drop hst
      have hword := run.totalMs.toNat_lt
      have htotal := h.budgets_le
      have hbudgets := run.before_le_budgets (i + 1)
      have hsucc := BrewRun.before_succ hst
      have htick : TICK_MS.toNat = 500 := rfl
      have hnext : (stageElapsed + step).toNat = stageElapsed.toNat + step.toNat := by
        rw [UInt32.toNat_add, Nat.mod_eq_of_lt (by omega)]
      simp only [rampStep, RampPc.steps, hnext]
      omega
  | ready elapsedMs => exact Nat.le_refl 0
  | done elapsedMs => exact Nat.le_refl 0

end

/-! ## Runs -/

def RampAction.isTask : RampAction → Bool
  | .task => true
  | .others _ => false

/-- How many steps the task takes. -/
def taskSteps (actions : List RampAction) : ℕ := actions.countP RampAction.isTask

section

variable {run : BrewRun} {c : Core}

/-- What holds at every point of a run. -/
def RampState.Sound (run : BrewRun) (s : Status) (r : RampState) : Prop :=
  r.pc.Timely run r.core.brew.cancel r.slept ∧ r.Accounted run s

theorem rampStart_sound (run : BrewRun) (c : Core) : (rampStart c).Sound run c.status :=
  ⟨⟨Nat.zero_le _, fun _ => rfl, rfl⟩, rampStart_accounted c⟩

theorem rampMove_sound (h : run.Fits) {s : Status} {r : RampState} {a : RampAction}
    (ha : RampAllowed r a) (hr : r.Sound run s) : (rampMove run r a).Sound run s :=
  ⟨rampMove_timely h ha hr.1, rampMove_accounted h ha hr.1 hr.2⟩

theorem rampRun_sound (h : run.Fits) {actions : List RampAction}
    (hrun : RampGuarded run c actions) : (rampRun run c actions).Sound run c.status :=
  hrun.invariant (fun _ _ hr ha => rampMove_sound h ha hr) (rampStart_sound run c)

theorem done_of_steps {r : RampState} (h : r.pc.steps run = 0) (hs : r.pc.Timely run
    r.core.brew.cancel r.slept) : ∃ elapsedMs, r.pc = .done elapsedMs := by
  obtain ⟨c, pc, pushed, slept⟩ := r
  cases pc with
  | stage i elapsedMs =>
      simp only [RampPc.steps] at h
      omega
  | tick i stageElapsed elapsedMs =>
      obtain ⟨st, hst, hle, -, -⟩ := hs
      have hdrop := budgets_drop hst
      simp only [RampPc.steps] at h
      omega
  | delay i stageElapsed elapsedMs step =>
      obtain ⟨st, hst, hlt, -, -, -⟩ := hs
      have hdrop := budgets_drop hst
      simp only [RampPc.steps] at h
      omega
  | ready elapsedMs => cases h
  | done elapsedMs => exact ⟨elapsedMs, rfl⟩

/-- The loops terminate, however the rest of the program runs in between. -/
theorem rampRun_terminates (h : run.Fits) {actions : List RampAction}
    (hrun : RampGuarded run c actions)
    (hsteps : 2 * run.totalMs.toNat + 2 * run.stages.length + 2 ≤ taskSteps actions) :
    ∃ elapsedMs, (rampRun run c actions).pc = .done elapsedMs := by
  have hstep : ∀ r a, r.Sound run c.status → RampAllowed r a →
      (rampMove run r a).Sound run c.status ∧
      (rampMove run r a).pc.steps run ≤ r.pc.steps run - if a.isTask then 1 else 0 := by
    intro r a hr ha
    refine ⟨rampMove_sound h ha hr, ?_⟩
    cases a with
    | task => exact rampStep_steps h hr.1
    | others c => exact Nat.le_refl _
  have hlower := hrun.countdown (m := fun r : RampState => r.pc.steps run) hstep
    (rampStart_sound run c)
  have htotal := h.budgets_le
  have hfirst : (rampStart c).pc.steps run =
      2 * (run.stages.map run.budget).sum + 2 * run.stages.length + 2 := rfl
  rw [hfirst] at hlower
  have hzero : (rampRun run c actions).pc.steps run = 0 := by
    refine Nat.le_zero.mp (hlower.trans ?_)
    rw [taskSteps] at hsteps
    omega
  exact done_of_steps hzero (rampRun_sound h hrun).1

/-! ### After a cancel -/

/-- Task steps from a program point to the end when the brew is cancelled. -/
def RampPc.cancelledSteps : RampPc → ℕ
  | .delay .. => 4
  | .tick .. => 3
  | .stage .. => 2
  | .ready _ => 1
  | .done _ => 0

/-- A push that is still to come after a cancel: that of the delay the task is in. -/
def RampPc.owed : RampPc → ℕ
  | .delay .. => 1
  | _ => 0

theorem rampMove_cancelled (run : BrewRun) {r : RampState} {a : RampAction}
    (hcancel : r.core.brew.cancel = true) (ha : RampAllowed r a) :
    (rampMove run r a).core.brew.cancel = true ∧
      (rampMove run r a).pushed.length + (rampMove run r a).pc.owed ≤
        r.pushed.length + r.pc.owed ∧
      (rampMove run r a).pc.cancelledSteps ≤
        r.pc.cancelledSteps - if a.isTask then 1 else 0 := by
  obtain ⟨c, pc, pushed, slept⟩ := r
  cases a with
  | others c' => exact ⟨ha.2 hcancel, Nat.le_refl _, Nat.le_refl _⟩
  | task =>
      have hset : c.brew.cancel = true := hcancel
      cases pc with
      | stage i elapsedMs =>
          simp only [rampMove, rampStep, hset]
          cases run.stages[i]? <;> exact ⟨hset, Nat.le_refl _, Nat.le_refl _⟩
      | tick i stageElapsed elapsedMs =>
          simp only [rampMove, rampStep, hset, Bool.true_eq_false, and_false, if_false]
          split
          · exact ⟨hset, Nat.le_refl _, Nat.le_succ _⟩
          · exact ⟨hset, Nat.le_refl _, Nat.le_refl _⟩
      | delay i stageElapsed elapsedMs step =>
          refine ⟨hset, ?_, Nat.le_refl _⟩
          simp only [rampMove, rampStep, List.length_append, List.length_singleton, RampPc.owed]
          omega
      | ready elapsedMs => exact ⟨hset, Nat.le_refl _, Nat.le_refl _⟩
      | done elapsedMs => exact ⟨hset, Nat.le_refl _, Nat.le_refl _⟩

/-- After a cancel one more status is pushed at most, and four steps end the ramp. -/
theorem rampRun_cancelled {r : RampState} {after : List RampAction}
    (hrun : Runs.Guarded (rampMove run) RampAllowed r after)
    (hcancel : r.core.brew.cancel = true) :
    (Runs.run (rampMove run) r after).pushed.length ≤ r.pushed.length + 1 ∧
      (4 ≤ taskSteps after → ∃ elapsedMs,
        (Runs.run (rampMove run) r after).pc = .done elapsedMs) := by
  have howed : r.pc.owed ≤ 1 := by
    cases r.pc <;> simp [RampPc.owed]
  have hmost : r.pc.cancelledSteps ≤ 4 := by
    cases r.pc <;> simp [RampPc.cancelledSteps]
  have hpushed := hrun.invariant
    (P := fun r' : RampState => r'.core.brew.cancel = true ∧
      r'.pushed.length + r'.pc.owed ≤ r.pushed.length + r.pc.owed)
    (fun r' a hr' ha => by
      have hmove := rampMove_cancelled run hr'.1 ha
      exact ⟨hmove.1, hmove.2.1.trans hr'.2⟩)
    ⟨hcancel, Nat.le_refl _⟩
  have hlower := hrun.countdown (P := fun r' : RampState => r'.core.brew.cancel = true)
    (m := fun r' : RampState => r'.pc.cancelledSteps)
    (fun r' a hr' ha => by
      have hmove := rampMove_cancelled run hr' ha
      exact ⟨hmove.1, hmove.2.2⟩)
    hcancel
  refine ⟨by omega, fun hfour => ?_⟩
  rw [taskSteps] at hfour
  have hzero : (Runs.run (rampMove run) r after).pc.cancelledSteps = 0 := by omega
  cases hpc : (Runs.run (rampMove run) r after).pc with
  | done elapsedMs => exact ⟨elapsedMs, rfl⟩
  | _ =>
      rw [hpc] at hzero
      cases hzero

end

/-! ## The shape of a ramp -/

theorem ofRamp_fits {ramp : BrewRamp} (hramp : ramp ∈ RAMPS) {totalMs : UInt32}
    (hpos : 1 ≤ totalMs.toNat) (hle : totalMs.toNat ≤ 42949672) (arg : BrewArg)
    (brewCode readyCode : Int16) : (BrewRun.ofRamp ramp totalMs arg brewCode readyCode).Fits := by
  refine ⟨⟨ramp, hramp, rfl⟩, ?_, hpos, hle⟩
  simp only [RAMPS, List.mem_cons, List.not_mem_nil, or_false] at hramp
  rcases hramp with rfl | rfl | rfl | rfl | rfl | rfl <;> rfl

theorem findRamp_mem (cat : RecipeCategory) : findRamp cat ∈ RAMPS := by
  rw [findRamp]
  cases hfind : RAMPS.find? fun r => r.category == cat with
  | none => simp [RAMPS]
  | some ramp => exact List.mem_of_find?_eq_some hfind

/-- The locals of `brew_task` are those of a ramp. -/
theorem brewRun_eq_ofRamp (c : Core) : ∃ ramp ∈ RAMPS,
    brewRun c = .ofRamp ramp (brewRun c).totalMs c.brew.arg c.family.processBrewing
      c.family.processReady :=
  ⟨_, findRamp_mem ((c.brew.arg.recipe.map Recipe.category).getD .coffee), rfl⟩

/-- What a ramp does from any state, whatever the rest of the program does in between. -/
structure RampShape (run : BrewRun) (c : Core) : Prop where
  terminates {actions : List RampAction} : RampGuarded run c actions →
    2 * run.totalMs.toNat + 2 * run.stages.length + 2 ≤ taskSteps actions →
      ∃ elapsedMs, (rampRun run c actions).pc = .done elapsedMs
  codes {actions : List RampAction} : RampGuarded run c actions →
    ∀ p ∈ (rampRun run c actions).pushed,
      p.process = run.brewCode ∧ 0 ≤ p.progress.toInt ∧ p.progress.toInt ≤ 100
  monotone {actions : List RampAction} : RampGuarded run c actions →
    (rampRun run c actions).pushed.Pairwise fun p q => p.progress.toInt ≤ q.progress.toInt
  order {actions : List RampAction} : RampGuarded run c actions →
    (rampRun run c actions).pushed.map Status.subProcess <+:
      run.stages.flatMap fun st => List.replicate (run.tickCount st) st.sub.code
  empty : ∀ st ∈ run.stages, stageMs run st = 0 → run.tickCount st = 0
  time {actions : List RampAction} : RampGuarded run c actions →
    (rampRun run c actions).slept ≤ run.totalMs.toNat
  complete {actions : List RampAction} {elapsedMs : UInt32} : RampGuarded run c actions →
    (rampRun run c actions).pc = .done elapsedMs →
    (rampRun run c actions).core.brew.cancel = false →
      (rampRun run c actions).pushed = rampStatuses run c.status ∧
        run.totalMs.toNat < (rampRun run c actions).slept + run.stages.length
  cancelled {before after : List RampAction} : RampGuarded run c (before ++ after) →
    (rampRun run c before).core.brew.cancel = true →
      (rampRun run c (before ++ after)).pushed.length ≤
        (rampRun run c before).pushed.length + 1 ∧
      (4 ≤ taskSteps after → ∃ elapsedMs,
        (rampRun run c (before ++ after)).pc = .done elapsedMs)
  ready {actions : List RampAction} {elapsedMs : UInt32} : RampGuarded run c actions →
    (rampRun run c actions).pc = .done elapsedMs →
      (rampRun run c actions).core.status =
        { c.status with process := run.readyCode, subProcess := 0, progress := 0 }

theorem rampShape_of_fits {run : BrewRun} (h : run.Fits) (c : Core) : RampShape run c where
  terminates := fun hrun hsteps => rampRun_terminates h hrun hsteps
  codes := fun hrun p hp => by
    have hpart := (rampRun_sound h hrun).2.pushed
    exact mem_rampStatuses h (hpart.subset hp)
  monotone := fun hrun => by
    have hpart := (rampRun_sound h hrun).2.pushed
    exact (pairwise_rampStatuses h c.status).sublist hpart.sublist
  order := fun hrun => by
    have hpart := (rampRun_sound h hrun).2.pushed
    rw [← rampStatuses_subProcess run c.status]
    exact hpart.map Status.subProcess
  empty := fun st _ hzero => (tickCount_eq_zero_iff run st).mpr hzero
  time := fun hrun => (rampRun_sound h hrun).1.slept_le.trans h.budgets_le
  complete := fun {actions elapsedMs} hrun hdone hcancel => by
    obtain ⟨htime, haccounted⟩ := rampRun_sound h hrun
    have hrest := haccounted.rest (.inr hcancel)
    rw [hdone] at htime hrest
    have hwhole := htime.2.1 hcancel
    have hlost := total_lt_shared_add_length run.totalMs.toNat h.weightSum.symm
      h.weightSum_pos
    rw [← h.budgets_eq, BrewRun.weights, List.length_map] at hlost
    refine ⟨by simpa [RampPc.remaining] using hrest, ?_⟩
    rw [htime.2.2, hwhole]
    exact hlost
  cancelled := fun {before after} hrun hcancel => by
    have hafter := ((Runs.guarded_append _ before after).mp hrun).2
    have hend : rampRun run c (before ++ after) =
        Runs.run (rampMove run) (rampRun run c before) after := Runs.run_append _ _ _
    rw [hend]
    exact rampRun_cancelled hafter hcancel
  ready := fun {actions elapsedMs} hrun hdone => by
    have hshows := (rampRun_sound h hrun).2.shows
    rw [hdone] at hshows
    exact hshows

/-- Every ramp has this shape, for every duration whose products fit their type. -/
theorem brew_ramp_shape {ramp : BrewRamp} (hramp : ramp ∈ RAMPS) (totalMs : UInt32)
    (hpos : 1 ≤ totalMs.toNat) (hle : totalMs.toNat ≤ 42949672) (arg : BrewArg)
    (brewCode readyCode : Int16) (c : Core) :
    RampShape (.ofRamp ramp totalMs arg brewCode readyCode) c :=
  rampShape_of_fits (ofRamp_fits hramp hpos hle arg brewCode readyCode) c

theorem brew_ramp_shape_espresso : RampShape
    (.ofRamp ⟨.espresso, 20000, S_ESPRESSO⟩ 20000 ⟨0, none, false⟩ 4 3)
    Machine.factoryFresh.core :=
  brew_ramp_shape (by simp [RAMPS]) 20000 (by decide) (by decide) _ _ _ _

/-! ## The ramp and the task -/

/-- A task in the ramp: the core, the program point and what its ticks have pushed. -/
structure TaskView where
  core : Core
  pc : BrewPc
  pushed : List Status

def TaskAllowed (t : TaskView) : RampAction → Prop
  | .task => True
  | .others c => c.status = t.core.status ∧ (t.core.brew.cancel = true → c.brew.cancel = true)

def taskMove (t : TaskView) : RampAction → TaskView
  | .task =>
      let r := brewTaskStep t.core t.pc
      { core := r.core
        pc := r.next.getD t.pc
        pushed := if r.push then t.pushed ++ [r.core.status] else t.pushed }
  | .others c => { t with core := c }

/-- A task in a delay is seen as one whose tick is over. -/
def RampState.view (run : BrewRun) (r : RampState) : TaskView :=
  match r.pc with
  | .stage i elapsedMs => ⟨r.core, .stage run i elapsedMs, r.pushed⟩
  | .tick i stageElapsed elapsedMs => ⟨r.core, .tick run i stageElapsed elapsedMs, r.pushed⟩
  | .delay i stageElapsed elapsedMs step =>
      let c := nivonaFsmSetProgress r.core (progressPct (elapsedMs + step) run.totalMs)
      ⟨c, .tick run i (stageElapsed + step) (elapsedMs + step), r.pushed ++ [c.status]⟩
  | .ready _ => ⟨r.core, .ready run, r.pushed⟩
  | .done _ => ⟨r.core, .check run, r.pushed⟩

/-- A ramp with delays is a run of the task without. -/
theorem ramp_simulates (run : BrewRun) : Runs.Simulates (RampState.view run) (rampMove run)
    RampAllowed taskMove TaskAllowed := by
  intro r a ha
  obtain ⟨c, pc, pushed, slept⟩ := r
  cases a with
  | others c' =>
      cases pc with
      | delay i stageElapsed elapsedMs step =>
          let pct := progressPct (elapsedMs + step) run.totalMs
          have hstatus : (nivonaFsmSetProgress c' pct).status =
              (nivonaFsmSetProgress c pct).status := by
            rw [nivonaFsmSetProgress, show c'.status = c.status from ha.1]
            rfl
          refine ⟨[.others (nivonaFsmSetProgress c' pct)], ⟨⟨hstatus, ha.2⟩, trivial⟩, ?_⟩
          simp only [rampMove, RampState.view, Runs.run_cons, Runs.run_nil, taskMove]
          rw [hstatus]
      | _ => exact ⟨[.others c'], ⟨ha, trivial⟩, rfl⟩
  | task =>
      cases pc with
      | stage i elapsedMs =>
          refine ⟨[.task], ⟨trivial, trivial⟩, ?_⟩
          change (rampStep run ⟨c, .stage i elapsedMs, pushed, slept⟩).view run =
            taskMove ⟨c, .stage run i elapsedMs, pushed⟩ .task
          cases hst : run.stages[i]? with
          | none => simp [rampStep, taskMove, brewTaskStep, hst, RampState.view]
          | some st =>
              cases hcancel : c.brew.cancel <;>
                simp [rampStep, taskMove, brewTaskStep, hst, hcancel, RampState.view]
      | tick i stageElapsed elapsedMs =>
          refine ⟨[.task], ⟨trivial, trivial⟩, ?_⟩
          change (rampStep run ⟨c, .tick i stageElapsed elapsedMs, pushed, slept⟩).view run =
            taskMove ⟨c, .tick run i stageElapsed elapsedMs, pushed⟩ .task
          cases hst : run.stages[i]? with
          | none => simp [rampStep, taskMove, brewTaskStep, hst, RampState.view]
          | some st =>
              by_cases hgo : stageElapsed < stageMs run st ∧ c.brew.cancel = false
              · simp only [rampStep, taskMove, brewTaskStep, hst, RampState.view, if_pos hgo]
                rfl
              · simp only [rampStep, taskMove, brewTaskStep, hst, RampState.view, if_neg hgo]
                rfl
      | delay i stageElapsed elapsedMs step => exact ⟨[], trivial, rfl⟩
      | ready elapsedMs => exact ⟨[.task], ⟨trivial, trivial⟩, rfl⟩
      | done elapsedMs => exact ⟨[], trivial, rfl⟩

end Nivona
