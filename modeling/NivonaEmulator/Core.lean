import NivonaEmulator.Device
import NivonaEmulator.Fsm

/-!
# Core state

Everything but the radio link: the device, the status, and the two modules that
run a task of their own.  A task is the list entry that says where it is; it
runs from one program point to the next in one step.
-/

namespace Nivona

/-! ## Brew module -/

inductive SubProcess
  | idle | grinding | coffee | steam | water | prepare
  deriving DecidableEq, Repr

/-- `NIVONA_SUB_IDLE` is 0, `NIVONA_SUB_PREPARE` is 5. -/
def SubProcess.code : SubProcess → Int16
  | .idle => 0
  | .grinding => 1
  | .coffee => 2
  | .steam => 3
  | .water => 4
  | .prepare => 5

structure BrewStage where
  sub : SubProcess
  weight : UInt8
  deriving DecidableEq, Repr

structure BrewRamp where
  category : RecipeCategory
  totalMs : UInt32
  stages : List BrewStage
  deriving DecidableEq, Repr

/-- `brew_arg_t`; the recipe pointer may be null. -/
structure BrewArg where
  selector : UInt8
  recipe : Option Recipe
  twoCups : Bool
  deriving DecidableEq, Repr

/-- Locals of `brew_task` that stay fixed during the ramp. -/
structure BrewRun where
  arg : BrewArg
  brewCode : Int16
  readyCode : Int16
  stages : List BrewStage
  totalMs : UInt32
  weightSum : UInt32
  deriving DecidableEq, Repr

/-- Program points of `brew_task`. -/
inductive BrewPc
  /-- created, nothing done yet -/
  | entry
  /-- at the test of the stage loop -/
  | stage (run : BrewRun) (i : ℕ) (elapsedMs : UInt32)
  /-- at the test of the tick loop of stage `i` -/
  | tick (run : BrewRun) (i : ℕ) (stageElapsed elapsedMs : UInt32)
  /-- after the ramp -/
  | ready (run : BrewRun)
  /-- at the test that guards the counters -/
  | check (run : BrewRun)
  | wear (run : BrewRun)
  | review
  | cleanup
  deriving DecidableEq, Repr

structure BrewModule where
  lockReady : Bool
  active : Bool
  cancel : Bool
  arg : BrewArg
  tasks : List BrewPc
  deriving DecidableEq, Repr

/-! ## Maintenance-cycle module -/

inductive CycleKind
  | descale | easyClean | intensiveClean | filterInsert | filterReplace
  | filterRemove | evaporating | genericClean
  deriving DecidableEq, Repr

def CycleKind.code : CycleKind → Int16
  | .descale => 10
  | .easyClean => 17
  | .intensiveClean => 19
  | .filterInsert => 11
  | .filterReplace => 12
  | .filterRemove => 13
  | .evaporating => 20
  | .genericClean => 9

inductive StatCounter
  | none | cleanCoffee | rinse | filterChange | descale
  deriving DecidableEq, Repr

/-- `cycle_plan_t`; 0 marks an absent prompt or register. -/
structure CyclePlan where
  kind : CycleKind
  totalMs : UInt32
  prepManip : UInt8
  statCounter : StatCounter
  statPct : Int16
  statWarn : Int16
  label : String
  deriving DecidableEq, Repr

/-- Program points of `cycle_task`. -/
inductive CyclePc
  /-- created, nothing done yet -/
  | entry
  /-- waiting for the prompt to be confirmed -/
  | prep (plan : CyclePlan)
  | announce (plan : CyclePlan)
  /-- at the test of the tick loop -/
  | tick (plan : CyclePlan) (elapsed : UInt32)
  /-- at the test that guards the completion -/
  | check (plan : CyclePlan)
  | complete (plan : CyclePlan)
  | ready
  | review
  | cleanup
  deriving DecidableEq, Repr

structure CycleModule where
  lockReady : Bool
  active : Bool
  cancel : Bool
  kind : CycleKind
  tasks : List CyclePc
  deriving DecidableEq, Repr

/-! ## Core -/

structure Core where
  device : Device
  status : Status
  brew : BrewModule
  cycle : CycleModule
  localWearTick : Int32
  /-- outcomes of the coming `xTaskCreate` calls -/
  taskResults : ℕ → Bool

/-- Outcome of the next `xTaskCreate`. -/
def Core.xTaskCreate (c : Core) : Bool × Core :=
  (c.taskResults 0, { c with taskResults := fun n => c.taskResults (n + 1) })

def Core.family (c : Core) : Family := nivonaFamilyCurrent c.device

def Core.stats (c : Core) : Stats := nivonaStatsCurrent c.device.family

def nivonaFsmSetProcess (c : Core) (process subProcess : Int16) : Core :=
  { c with status := { c.status with process := process, subProcess := subProcess } }

def nivonaFsmSetProgress (c : Core) (progress : Int16) : Core :=
  { c with status := { c.status with progress := progress } }

def nivonaFsmSetManipulation (c : Core) (m : UInt8) : Core :=
  { c with status := { c.status with manipulation := m } }

def nivonaFsmSetInfo (c : Core) (i : UInt8) : Core :=
  { c with status := { c.status with info := i } }

def nivonaFsmResetToReady (c : Core) : Core :=
  { c with status := Status.ready c.family.processReady }

/-- An operation of the register store. -/
def Core.onStorage (c : Core) (f : Storage → Storage) : Core :=
  { c with device := c.device.onStorage f }

/-- An operation of the consumables. -/
def Core.onDevice (c : Core) (f : Device → Device) : Core :=
  { c with device := f c.device }

end Nivona
