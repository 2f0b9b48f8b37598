import Mathlib.Data.Rat.Floor
import NivonaEmulator.Maint

/-!
# Brewing

`nivonaBrewStart` is split where its mutex sections begin and end, so that
concurrent callers can be interleaved.  `brewTaskStep` is `brew_task`, one
program point at a time: the status it pushes is the one left by the step.
-/

namespace Nivona

/-! ## Ramps -/

def S_ESPRESSO : List BrewStage := [⟨.grinding, 3⟩, ⟨.coffee, 7⟩]
def S_COFFEE : List BrewStage := [⟨.grinding, 3⟩, ⟨.coffee, 7⟩]
def S_AMERICANO : List BrewStage := [⟨.grinding, 2⟩, ⟨.coffee, 5⟩, ⟨.water, 3⟩]
def S_MILK_DRINK : List BrewStage := [⟨.grinding, 2⟩, ⟨.coffee, 4⟩, ⟨.steam, 4⟩]
def S_MILK_ONLY : List BrewStage := [⟨.steam, 10⟩]
def S_WATER : List BrewStage := [⟨.water, 10⟩]

def rampCoffee : BrewRamp := ⟨.coffee, 28000, S_COFFEE⟩

def RAMPS : List BrewRamp :=
  [⟨.espresso, 20000, S_ESPRESSO⟩, rampCoffee, ⟨.americano, 35000, S_AMERICANO⟩,
   ⟨.milkDrink, 45000, S_MILK_DRINK⟩, ⟨.milkOnly, 20000, S_MILK_ONLY⟩,
   ⟨.water, 15000, S_WATER⟩]

/-- Ramp of a category; the coffee ramp when there is none. -/
def findRamp (cat : RecipeCategory) : BrewRamp :=
  (RAMPS.find? fun r => r.category == cat).getD rampCoffee

def TICK_MS : UInt32 := 500

/-! ## Overrides -/

/-- The temp-recipe fields the app wrote before the brew; `-1` is absent. -/
structure BrewOverrides where
  strength : Int32
  twoCups : Int32
  coffeeAmount : Int32
  waterAmount : Int32
  milkAmount : Int32
  milkFoamAmount : Int32
  deriving DecidableEq, Repr

def readTempReg (s : Storage) (offset : Int8) : Int32 :=
  if offset < 0 then -1
  else if nivonaStoreHasNum s (nivonaTempRecipeReg offset) then
    nivonaStoreGetNum s (nivonaTempRecipeReg offset)
  else -1

def readOverrides (s : Storage) (fam : Family) : BrewOverrides :=
  let l := fam.recipeLayout
  { strength := readTempReg s l.strength
    twoCups := readTempReg s l.twoCups
    coffeeAmount := readTempReg s l.coffeeAmount
    waterAmount := readTempReg s l.waterAmount
    milkAmount := readTempReg s l.milkAmount
    milkFoamAmount := readTempReg s l.milkFoamAmount }

/-- Does any field call for scaling?  A strength of 0 counts as set. -/
def BrewOverrides.active (ov : BrewOverrides) : Bool :=
  ov.strength ≥ 0 || ov.twoCups > 0 || ov.coffeeAmount > 0 || ov.waterAmount > 0 ||
    ov.milkAmount > 0 || ov.milkFoamAmount > 0

/-- Total of the fluid volumes that are set. -/
def BrewOverrides.fluidTotal (ov : BrewOverrides) : Int32 :=
  [ov.coffeeAmount, ov.waterAmount, ov.milkAmount, ov.milkFoamAmount].foldl
    (fun total v => if v > 0 then total + v else total) 0

/-- The duration multiplier, in exact arithmetic where the source uses single
precision. -/
def overrideScale (ov : BrewOverrides) : ℚ :=
  let strengthMult : ℚ :=
    if ov.strength > 0 then 1 + 15 / 100 * ov.strength.toInt else 1
  let volumeMult : ℚ :=
    if ov.fluidTotal > 0 then min 4 (max (1 / 2) (ov.fluidTotal.toInt / 80)) else 1
  strengthMult * volumeMult

/-- The scaled duration, rounded down.  The source multiplies and casts single-precision
floats, so it may be off by their rounding, and its cast has no meaning from 2^32 on,
where this wraps. -/
def applyOverrideScale (totalMs : UInt32) (ov : BrewOverrides) : UInt32 :=
  UInt32.ofInt ⌊(totalMs.toNat : ℚ) * overrideScale ov⌋

/-! ## Counters and wear -/

/-- Increment a register inside a batch. -/
def batchBump (s : Storage) (id : Int16) : Storage :=
  nivonaStoreBatchSetNum s id (nivonaStoreGetNum s id + 1)

/-- Lower a gauge that is above zero, and raise its warning below a threshold. -/
def batchWearGauge (s : Storage) (gauge warn : Int16) (threshold : Int32) : Storage :=
  let pct := nivonaStoreGetNum s gauge
  let s := if pct > 0 then nivonaStoreBatchSetNum s gauge (pct - 1) else s
  if nivonaStoreGetNum s gauge < threshold then nivonaStoreBatchSetNum s warn 1 else s

/-- Cup counters, then the filter, brew-unit and descale gauges. -/
def applyWearAfterBrew (arg : BrewArg) (c : Core) : Core :=
  let stats := c.stats
  let s := nivonaStoreBatchBegin c.device.toStorage
  let s :=
    if nivonaStatsHasRecipeCounter stats arg.selector then
      batchBump s (200 + arg.selector.toUInt16.toInt16)
    else s
  let s := if stats.totalId ≠ 0 then batchBump s stats.totalId else s
  let s := if stats.viaAppId ≠ 0 then batchBump s stats.viaAppId else s
  -- families without a total counter count in a variable of their own
  let wearTicks :=
    if stats.totalId ≠ 0 then nivonaStoreGetNum s stats.totalId else c.localWearTick + 1
  let s := batchWearGauge s 640 641 10
  let s := if wearTicks &&& 1 = 0 then batchWearGauge s 610 611 20 else s
  let s := if wearTicks % 5 = 0 then batchWearGauge s 600 601 20 else s
  { c with
    device := { c.device with toStorage := nivonaStoreBatchEnd s }
    localWearTick := wearTicks }

/-! ## The brew task -/

/-- What one step of a task does: the new state, the next program point unless
the task is deleted, and whether it pushes the status. -/
structure TaskStep (Pc : Type) where
  core : Core
  next : Option Pc
  push : Bool

/-- Resources a stage consumes. -/
def consumeStage (d : Device) : SubProcess → Device
  | .grinding =>
      nivonaConsumablesFillTray (nivonaConsumablesConsumeBeans d 3) 2
  | .coffee => nivonaConsumablesConsumeWater d 3
  | .water => nivonaConsumablesConsumeWater d 5
  | .steam => nivonaConsumablesConsumeWater d 3
  | _ => d

/-- Time budget of a stage. -/
def stageMs (run : BrewRun) (st : BrewStage) : UInt32 :=
  run.totalMs * st.weight.toUInt32 / run.weightSum

/-- Progress in percent, at most 100. -/
def progressPct (elapsedMs totalMs : UInt32) : Int16 :=
  let pct := (elapsedMs * 100 / totalMs).toUInt16.toInt16
  if pct > 100 then 100 else pct

/-- Locals of a task that starts with the stored argument. -/
def brewRun (c : Core) : BrewRun :=
  let arg := c.brew.arg
  let cat := (arg.recipe.map Recipe.category).getD .coffee
  let ramp := findRamp cat
  let totalMs := if arg.twoCups then ramp.totalMs * 2 else ramp.totalMs
  let ov := readOverrides c.device.toStorage c.family
  let weights := ramp.stages.foldl (fun sum st => sum + st.weight.toUInt32) 0
  { arg := arg
    brewCode := c.family.processBrewing
    readyCode := c.family.processReady
    stages := ramp.stages
    totalMs := if ov.active then applyOverrideScale totalMs ov else totalMs
    weightSum := if weights = 0 then 1 else weights }

/-- One step of `brew_task`. -/
def brewTaskStep (c : Core) : BrewPc → TaskStep BrewPc
  | .entry =>
      let run := brewRun c
      let c := nivonaFsmSetProcess c run.brewCode run.arg.selector.toUInt16.toInt16
      let c := nivonaFsmSetProgress c 0
      let c := nivonaFsmSetInfo c 0
      -- the brew supersedes a pending soft prompt
      let c := nivonaFsmSetManipulation c MANIP_NONE
      ⟨c, some (.stage run 0 0), true⟩
  | .stage run i elapsedMs =>
      match run.stages[i]?, c.brew.cancel with
      | some st, false =>
          let c := c.onDevice fun d => consumeStage d st.sub
          let c := nivonaFsmSetProcess c run.brewCode st.sub.code
          ⟨c, some (.tick run i 0 elapsedMs), false⟩
      | _, _ => ⟨c, some (.ready run), false⟩
  | .tick run i stageElapsed elapsedMs =>
      match run.stages[i]? with
      | none => ⟨c, some (.ready run), false⟩
      | some st =>
          if stageElapsed < stageMs run st ∧ c.brew.cancel = false then
            let step := min (stageMs run st - stageElapsed) TICK_MS
            let elapsedMs := elapsedMs + step
            let c := nivonaFsmSetProgress c (progressPct elapsedMs run.totalMs)
            ⟨c, some (.tick run i (stageElapsed + step) elapsedMs), true⟩
          else ⟨c, some (.stage run (i + 1) elapsedMs), false⟩
  | .ready run =>
      let c := nivonaFsmSetProcess c run.readyCode 0
      ⟨nivonaFsmSetProgress c 0, some (.check run), false⟩
  | .check run =>
      ⟨c, some (if c.brew.cancel then .review else .wear run), false⟩
  | .wear run => ⟨applyWearAfterBrew run.arg c, some .review, false⟩
  | .review => ⟨nivonaMaintReevaluate c, some .cleanup, true⟩
  | .cleanup =>
      ⟨{ c with brew := { c.brew with active := false, cancel := false } }, none, false⟩

/-- Run one step of the `i`-th brew task, and say whether it pushes the status. -/
def brewTask (c : Core) (i : ℕ) : Core × Bool :=
  match c.brew.tasks[i]? with
  | none => (c, false)
  | some pc =>
      let r := brewTaskStep c pc
      let tasks := match r.next with
        | some pc' => c.brew.tasks.set i pc'
        | none => c.brew.tasks.eraseIdx i
      ({ r.core with brew := { r.core.brew with tasks := tasks } }, r.push)

/-! ## Starting and cancelling -/

def nivonaBrewInit (c : Core) : Core :=
  { c with brew := { c.brew with lockReady := true } }

/-- Selector and recipe of a process value on the current family. -/
def brewResolve (c : Core) (processValue : Int16) : Option (UInt8 × Recipe) :=
  let sel := processValue.toUInt16.toUInt8
  (nivonaFamilyRecipeBySelector c.family sel).map fun r => (sel, r)

def nivonaMaintCycleActive (c : Core) : Bool :=
  c.cycle.lockReady && c.cycle.active

def nivonaBrewActive (c : Core) : Bool :=
  c.brew.lockReady && c.brew.active

/-- Is a hard prompt pending? -/
def brewPromptRefuses (c : Core) : Bool :=
  c.status.manipulation != MANIP_NONE && !nivonaMaintCurrentIsSoft c

/-- The check-and-set section under the brew lock. -/
def brewCommit (c : Core) (sel : UInt8) (recipe : Recipe) (twoCups : Bool) :
    Core × Bool :=
  if c.brew.active then (c, false)
  else
    let c := { c with brew := { c.brew with
      arg := { selector := sel, recipe := some recipe, twoCups := twoCups }
      active := true
      cancel := false } }
    let (created, c) := c.xTaskCreate
    if created then
      ({ c with brew := { c.brew with tasks := c.brew.tasks ++ [.entry] } }, true)
    else
      ({ c with brew := { c.brew with active := false } }, false)

def nivonaBrewStart (c : Core) (processValue : Int16) (twoCups : Bool) : Core × Bool :=
  if !c.brew.lockReady then (c, false)
  else match brewResolve c processValue with
    | none => (c, false)
    | some (sel, recipe) =>
        if nivonaMaintCycleActive c then (c, false)
        else if brewPromptRefuses c then (c, false)
        else brewCommit c sel recipe twoCups

def nivonaBrewCancel (c : Core) : Core :=
  if c.brew.lockReady && c.brew.active then
    { c with brew := { c.brew with cancel := true } }
  else c

/-! ## What a step touches -/

/-- Cancelling touches the flag for it alone. -/
theorem nivonaBrewCancel_frame (c : Core) :
    ∃ cancel, nivonaBrewCancel c = { c with brew := { c.brew with cancel := cancel } } := by
  rw [nivonaBrewCancel]
  split
  · exact ⟨true, rfl⟩
  · exact ⟨c.brew.cancel, rfl⟩

/-- Stages consume from the tanks alone. -/
theorem consumeStage_frame (d : Device) (sub : SubProcess) :
    (consumeStage d sub).family = d.family ∧ (consumeStage d sub).num = d.num := by
  cases sub <;> exact ⟨rfl, rfl⟩

/-- A step of the task leaves the other module and the family alone, and only the last one
touches the brew flags. -/
theorem brewTaskStep_frame (c : Core) (pc : BrewPc) :
    (brewTaskStep c pc).core.brew =
        (if pc = .cleanup then { c.brew with active := false, cancel := false } else c.brew) ∧
      (brewTaskStep c pc).core.cycle = c.cycle ∧
      (brewTaskStep c pc).core.device.family = c.device.family := by
  cases pc with
  | stage run i elapsedMs =>
      simp only [brewTaskStep]
      split
      · exact ⟨rfl, rfl, (consumeStage_frame c.device _).1⟩
      · exact ⟨rfl, rfl, rfl⟩
  | tick run i stageElapsed elapsedMs =>
      simp only [brewTaskStep]
      split
      · exact ⟨rfl, rfl, rfl⟩
      · split <;> exact ⟨rfl, rfl, rfl⟩
  | _ => exact ⟨rfl, rfl, rfl⟩

theorem brewTaskStep_brew (c : Core) (pc : BrewPc) :
    (brewTaskStep c pc).core.brew =
      if pc = .cleanup then { c.brew with active := false, cancel := false } else c.brew :=
  (brewTaskStep_frame c pc).1

theorem brewTaskStep_cycle (c : Core) (pc : BrewPc) :
    (brewTaskStep c pc).core.cycle = c.cycle :=
  (brewTaskStep_frame c pc).2.1

theorem brewTaskStep_family (c : Core) (pc : BrewPc) :
    (brewTaskStep c pc).core.device.family = c.device.family :=
  (brewTaskStep_frame c pc).2.2

/-- Where a brew task goes from each program point. -/
inductive BrewPc.Next (c : Core) : BrewPc → BrewPc → Prop
  | start : Next c .entry (.stage (brewRun c) 0 0)
  | stage {run : BrewRun} {i : ℕ} {st : BrewStage} (elapsedMs : UInt32)
      (hst : run.stages[i]? = some st) :
      Next c (.stage run i elapsedMs) (.tick run i 0 elapsedMs)
  | rampEnd (run : BrewRun) (i : ℕ) (elapsedMs : UInt32) :
      Next c (.stage run i elapsedMs) (.ready run)
  | noStage (run : BrewRun) (i : ℕ) (stageElapsed elapsedMs : UInt32) :
      Next c (.tick run i stageElapsed elapsedMs) (.ready run)
  | tick {run : BrewRun} {i : ℕ} {st : BrewStage} {stageElapsed : UInt32}
      (elapsedMs elapsedMs' : UInt32) (hst : run.stages[i]? = some st)
      (hlt : stageElapsed < stageMs run st) :
      Next c (.tick run i stageElapsed elapsedMs)
        (.tick run i (stageElapsed + min (stageMs run st - stageElapsed) TICK_MS) elapsedMs')
  | stageEnd {run : BrewRun} {i : ℕ} {st : BrewStage} (stageElapsed elapsedMs : UInt32)
      (hst : run.stages[i]? = some st) :
      Next c (.tick run i stageElapsed elapsedMs) (.stage run (i + 1) elapsedMs)
  | ready (run : BrewRun) : Next c (.ready run) (.check run)
  | approved (run : BrewRun) (hcancel : c.brew.cancel = false) : Next c (.check run) (.wear run)
  | cancelled (run : BrewRun) (hcancel : c.brew.cancel = true) : Next c (.check run) .review
  | wear (run : BrewRun) : Next c (.wear run) .review
  | review : Next c .review .cleanup

/-- The task goes on until its cleanup. -/
theorem brewTaskStep_next (c : Core) (pc : BrewPc) (hpc : pc ≠ .cleanup) :
    ∃ pc', (brewTaskStep c pc).next = some pc' ∧ pc.Next c pc' := by
  cases pc with
  | entry => exact ⟨_, rfl, .start⟩
  | stage run i elapsedMs =>
      simp only [brewTaskStep]
      split
      · rename_i st hst _
        exact ⟨_, rfl, .stage _ hst⟩
      · exact ⟨_, rfl, .rampEnd ..⟩
  | tick run i stageElapsed elapsedMs =>
      simp only [brewTaskStep]
      split
      · exact ⟨_, rfl, .noStage ..⟩
      · rename_i st hst
        split
        · rename_i hlt
          exact ⟨_, rfl, .tick _ _ hst hlt.1⟩
        · exact ⟨_, rfl, .stageEnd _ _ hst⟩
  | ready run => exact ⟨_, rfl, .ready run⟩
  | check run =>
      refine ⟨_, rfl, ?_⟩
      split
      · exact .cancelled run ‹_›
      · exact .approved run (Bool.eq_false_of_not_eq_true ‹_›)
  | wear run => exact ⟨_, rfl, .wear run⟩
  | review => exact ⟨_, rfl, .review⟩
  | cleanup => exact absurd rfl hpc

theorem BrewPc.next_of_step {c : Core} {pc pc' : BrewPc}
    (h : (brewTaskStep c pc).next = some pc') : pc.Next c pc' := by
  have hpc : pc ≠ .cleanup := by
    rintro rfl
    exact absurd h (by simp [brewTaskStep])
  obtain ⟨next, hnext, hmove⟩ := brewTaskStep_next c pc hpc
  obtain rfl := Option.some.inj (hnext.symm.trans h)
  exact hmove

/-- Only the review leads to the cleanup. -/
theorem BrewPc.Next.eq_review {c : Core} {pc : BrewPc} (h : pc.Next c .cleanup) :
    pc = .review := by
  cases h
  rfl

/-- Apart from the list of tasks, a task does what its program point says. -/
theorem brewTask_core {c : Core} {i : ℕ} {pc : BrewPc} (hpc : c.brew.tasks[i]? = some pc) :
    ∃ tasks, (brewTask c i).1 = { (brewTaskStep c pc).core with
      brew := { (brewTaskStep c pc).core.brew with tasks := tasks } } := by
  rw [brewTask, hpc]
  exact ⟨_, rfl⟩

theorem brewTask_cycle (c : Core) (i : ℕ) : (brewTask c i).1.cycle = c.cycle := by
  rw [brewTask]
  split
  · rfl
  · exact brewTaskStep_cycle c _

theorem brewTask_family (c : Core) (i : ℕ) :
    (brewTask c i).1.device.family = c.device.family := by
  rw [brewTask]
  split
  · rfl
  · exact brewTaskStep_family c _

theorem brewTask_lockReady (c : Core) (i : ℕ) :
    (brewTask c i).1.brew.lockReady = c.brew.lockReady := by
  rw [brewTask]
  split
  · rfl
  · dsimp only
    rw [brewTaskStep_brew]
    split <;> rfl

/-- No step of a task sets the flag. -/
theorem active_of_brewTask {c : Core} {i : ℕ} (h : (brewTask c i).1.brew.active = true) :
    c.brew.active = true := by
  rw [brewTask] at h
  split at h
  · exact h
  · dsimp only at h
    rw [brewTaskStep_brew] at h
    split at h
    · exact absurd h Bool.false_ne_true
    · exact h

/-- The section sets the flag only when it is clear and the task is created. -/
theorem brewCommit_cases (c : Core) (sel : UInt8) (recipe : Recipe) (twoCups : Bool) :
    (c.brew.active = true ∧ brewCommit c sel recipe twoCups = (c, false)) ∨
    (c.brew.active = false ∧ c.taskResults 0 = false ∧
      ∃ brew, (brewCommit c sel recipe twoCups) =
        ({ c.xTaskCreate.2 with brew := brew }, false) ∧
        brew.lockReady = c.brew.lockReady ∧ brew.active = false ∧ brew.tasks = c.brew.tasks) ∨
    (c.brew.active = false ∧ c.taskResults 0 = true ∧
      ∃ brew, (brewCommit c sel recipe twoCups) =
        ({ c.xTaskCreate.2 with brew := brew }, true) ∧
        brew.lockReady = c.brew.lockReady ∧ brew.active = true ∧
        brew.tasks = c.brew.tasks ++ [.entry]) := by
  by_cases hactive : c.brew.active = true
  · exact .inl ⟨hactive, by simp [brewCommit, hactive]⟩
  · rw [Bool.not_eq_true] at hactive
    right
    by_cases htask : c.taskResults 0 = true
    · right
      refine ⟨hactive, htask, { c.brew with
        arg := { selector := sel, recipe := some recipe, twoCups := twoCups }
        active := true, cancel := false, tasks := c.brew.tasks ++ [.entry] }, ?_, rfl, rfl, rfl⟩
      simp [brewCommit, Core.xTaskCreate, hactive, htask]
    · left
      rw [Bool.not_eq_true] at htask
      refine ⟨hactive, htask, { c.brew with
        arg := { selector := sel, recipe := some recipe, twoCups := twoCups }
        active := false, cancel := false }, ?_, rfl, rfl, rfl⟩
      simp [brewCommit, Core.xTaskCreate, hactive, htask]

/-- The section touches nothing but the brew module. -/
theorem brewCommit_frame (c : Core) (sel : UInt8) (recipe : Recipe) (twoCups : Bool) :
    ∃ brew taskResults, brew.lockReady = c.brew.lockReady ∧
      (brewCommit c sel recipe twoCups).1 =
        { c with brew := brew, taskResults := taskResults } := by
  rcases brewCommit_cases c sel recipe twoCups with
    ⟨-, he⟩ | ⟨-, -, brew, he, hlock, -⟩ | ⟨-, -, brew, he, hlock, -⟩
  · exact ⟨c.brew, c.taskResults, rfl, by rw [he]⟩
  · exact ⟨brew, c.xTaskCreate.2.taskResults, hlock, by rw [he]; rfl⟩
  · exact ⟨brew, c.xTaskCreate.2.taskResults, hlock, by rw [he]; rfl⟩

/-- The brew call returns without effect or gets to its section. -/
theorem nivonaBrewStart_cases (c : Core) (processValue : Int16) (twoCups : Bool) :
    nivonaBrewStart c processValue twoCups = (c, false) ∨
    (brewPromptRefuses c = false ∧ nivonaMaintCycleActive c = false ∧ ∃ sel recipe,
      nivonaBrewStart c processValue twoCups = brewCommit c sel recipe twoCups) := by
  rw [nivonaBrewStart]
  split
  · exact .inl rfl
  · split
    · exact .inl rfl
    · rename_i sel recipe hres
      split
      · exact .inl rfl
      · rename_i hcycle
        split
        · exact .inl rfl
        · rename_i hprompt
          exact .inr ⟨by simpa using hprompt, by simpa using hcycle, sel, recipe, rfl⟩

end Nivona
