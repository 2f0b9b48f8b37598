import NivonaEmulator.Lib.Runs
import NivonaEmulator.Receive

/-!
# Boot and operator commands

`app_main`, the commands of the console and the touch screen that reach the
core, and the core as a step function over everything that can happen to it.
-/

namespace Nivona

/-! ## Boot -/

/-- Static storage at power-on. -/
def Core.powerOn (nvs : Nvs) (taskResults : ℕ → Bool) : Core :=
  { device := Device.powerOn nvs
    status := { process := 0, subProcess := 0, info := 0, manipulation := 0, progress := 0 }
    brew :=
      { lockReady := false, active := false, cancel := false
        arg := { selector := 0, recipe := none, twoCups := false }, tasks := [] }
    cycle :=
      { lockReady := false, active := false, cancel := false
        kind := .genericClean, tasks := [] }
    localWearTick := 0
    taskResults := taskResults }

/-- Status of the restored family, before anything else runs. -/
def nivonaFsmInit (c : Core) : Core :=
  { c with status := Status.ready c.family.processReady }

/-- The part of `app_main` that sets up the core. -/
def appMain (it : NvsIterator) (nvs : Nvs) (taskResults : ℕ → Bool) : Core :=
  let c := nivonaFsmInit (Core.powerOn nvs taskResults)
  let c := c.onDevice nivonaConsumablesInit
  let c := c.onStorage fun s => nivonaStoreInit it c.stats s.nvs
  nivonaMaintColdStart (nivonaMaintCycleInit (nivonaBrewInit c))

/-- Restart on the flash as it is. -/
def reboot (it : NvsIterator) (c : Core) : Core :=
  appMain it c.device.nvs c.taskResults

/-- What the platform does: the order in which flash is iterated, which tasks
can be created, the random keys, and the answers of the BLE stack. -/
structure Environment where
  iterator : NvsIterator
  taskResults : ℕ → Bool
  notifyHandle : UInt16
  randomKeys : ℕ → KeyPrefix
  notifyResults : ℕ → NotifyResult

/-- The link at power-on, without a connection. -/
def Link.powerOn (env : Environment) (deviceName : List UInt8) : Link :=
  { frame :=
      { buf := [], length_buf := Nat.zero_le _, inFrame := false
        handshakeDone := false, keyPrefix := ⟨0, 0⟩ }
    gatt :=
      { connHandle := BLE_HS_CONN_HANDLE_NONE, notifyHandle := env.notifyHandle
        notifySubscribed := false }
    diag := {}
    deviceName := deviceName
    randomKeys := env.randomKeys
    notifyResults := env.notifyResults
    calls := []
    wire := [] }

/-- The machine after `app_main`. -/
def Machine.boot (env : Environment) (nvs : Nvs) : Machine :=
  let core := appMain env.iterator nvs env.taskResults
  { core := core, link := Link.powerOn env core.family.bleName.toUTF8.data.toList }

/-- A platform on which everything succeeds. -/
def Environment.benign : Environment :=
  { iterator := NvsIterator.storageOrder
    taskResults := fun _ => true
    notifyHandle := 1
    randomKeys := fun _ => ⟨0x12, 0x34⟩
    notifyResults := fun _ => .sent }

/-- A new machine on empty flash. -/
def Machine.factoryFresh : Machine := Machine.boot Environment.benign Nvs.empty

/-! ## Console -/

def consumByName (name : String) : Option Consumable :=
  if name = "water" then some .water
  else if name = "beans" then some .beans
  else if name = "tray" then some .tray
  else if name = "filter" then some .filter
  else none

def partByName (name : String) : Option Part :=
  if name = "brew_unit" then some .brewUnit
  else if name = "trays" then some .trays
  else if name = "powder_lid" then some .powderLid
  else none

/-- `tank <name> <pct>`. -/
def cmdTank (c : Core) (name : String) (pct : ℤ) : Core :=
  match consumByName name with
  | none => c
  | some t =>
      let pct := UInt8.ofInt (if pct < 0 then 0 else if pct > 100 then 100 else pct)
      nivonaMaintReevaluate (c.onDevice fun d => nivonaConsumableSet d t pct)

/-- What `fix <name>` repairs. -/
def fixTarget (d : Device) (name : String) : Option Device :=
  if name = "water" then some (nivonaConsumableSet d .water 100)
  else if name = "beans" then some (nivonaConsumableSet d .beans 100)
  else if name = "tray" then some (nivonaConsumableSet d .tray 0)
  else if name = "filter" then some (nivonaConsumableSet d .filter 100)
  else if name = "all" then some (nivonaConsumablesReset d)
  else (partByName name).map fun p => nivonaPartSet d p true

/-- `fix <name>`. -/
def cmdFix (c : Core) (name : String) : Core :=
  match fixTarget c.device name with
  | none => c
  | some d => nivonaMaintReevaluate { c with device := d }

/-- `part <name> <state>`. -/
def cmdPart (c : Core) (name state : String) : Core :=
  match partByName name with
  | none => c
  | some p =>
      let present := state = "on" ∨ state = "present" ∨ state = "in" ∨ state = "1"
      nivonaMaintReevaluate (c.onDevice fun d => nivonaPartSet d p (decide present))

/-- `family <key>`: select the family and reset the status. -/
def cmdFamily (c : Core) (key : String) : Core :=
  match nivonaFamilyFind key with
  | none => c
  | some _ => nivonaFsmResetToReady (c.onDevice fun d => nivonaFamilySet d key)

/-- `maint <cycle>`. -/
def cmdMaint (c : Core) (name : String) : Core :=
  match nivonaMaintCycleFromName name with
  | none => c
  | some kind => (nivonaMaintCycleStart c kind).1

/-! ## Touch screen -/

def onRefillWater (c : Core) : Core :=
  nivonaMaintReevaluate (c.onDevice fun d => nivonaConsumableSet d .water 100)

def onRefillBeans (c : Core) : Core :=
  nivonaMaintReevaluate (c.onDevice fun d => nivonaConsumableSet d .beans 100)

def onEmptyTray (c : Core) : Core :=
  nivonaMaintReevaluate (c.onDevice fun d => nivonaConsumableSet d .tray 0)

/-- The family picker only selects the family. -/
def onFamilySelect (c : Core) (key : String) : Core :=
  c.onDevice fun d => nivonaFamilySet d key

/-! ## Steps of the core -/

/-- What can happen to the core. -/
inductive Op
  | reboot (it : NvsIterator)
  | brewStart (processValue : Int16) (twoCups : Bool)
  | cycleStart (kind : CycleKind)
  | brewCancel
  | cycleCancel
  | confirm
  | brewTask (i : ℕ)
  | cycleTask (i : ℕ)
  | tank (name : String) (pct : ℤ)
  | fix (name : String)
  | part (name state : String)
  | refillWater
  | refillBeans
  | emptyTray
  | familyCli (key : String)
  | familyUi (key : String)
  | setNum (id : Int16) (value : Int32)
  | setAlpha (id : Int16) (data : List UInt8)
  | eraseNum (id : Int16)

def coreStep (c : Core) : Op → Core
  | .reboot it => reboot it c
  | .brewStart pv twoCups => (nivonaBrewStart c pv twoCups).1
  | .cycleStart kind => (nivonaMaintCycleStart c kind).1
  | .brewCancel => nivonaBrewCancel c
  | .cycleCancel => nivonaMaintCycleCancel c
  | .confirm => (nivonaMaintHandleConfirm c).1
  | .brewTask i => (brewTask c i).1
  | .cycleTask i => (cycleTask c i).1
  | .tank name pct => cmdTank c name pct
  | .fix name => cmdFix c name
  | .part name state => cmdPart c name state
  | .refillWater => onRefillWater c
  | .refillBeans => onRefillBeans c
  | .emptyTray => onEmptyTray c
  | .familyCli key => cmdFamily c key
  | .familyUi key => onFamilySelect c key
  | .setNum id value => c.onStorage fun s => nivonaStoreSetNum s id value
  | .setAlpha id data => c.onStorage fun s => nivonaStoreSetAlpha s id data
  | .eraseNum id => c.onStorage fun s => nivonaStoreEraseNum s id

/-- A console command that names a cycle starts it. -/
theorem cmdMaint_eq (c : Core) (name : String) :
    cmdMaint c name = c ∨ ∃ kind, cmdMaint c name = coreStep c (.cycleStart kind) := by
  rw [cmdMaint]
  split
  · exact .inl rfl
  · exact .inr ⟨_, rfl⟩

/-! ## What a step leaves alone -/

/-- Neither the start, the end nor a step of a brew or a cycle. -/
def Op.quiet : Op → Bool
  | .reboot _ | .brewStart .. | .cycleStart _ | .brewCancel | .cycleCancel
  | .brewTask _ | .cycleTask _ => false
  | _ => true

theorem nivonaMaintColdStart_modules (c : Core) :
    (nivonaMaintColdStart c).brew = c.brew ∧ (nivonaMaintColdStart c).cycle = c.cycle := by
  simp only [nivonaMaintColdStart]
  split <;> exact ⟨rfl, rfl⟩

theorem nivonaMaintHandleConfirm_modules (c : Core) :
    (nivonaMaintHandleConfirm c).1.brew = c.brew ∧
      (nivonaMaintHandleConfirm c).1.cycle = c.cycle := by
  rw [nivonaMaintHandleConfirm]
  split
  · exact ⟨rfl, rfl⟩
  · split <;> exact ⟨rfl, rfl⟩

/-- What the other operations do: nothing, a look at the prompts after tanks or parts have
changed, a write of the store, a confirmation, or a choice of the family. -/
theorem coreStep_quiet_cases (c : Core) {op : Op} (h : op.quiet = true) :
    coreStep c op = c ∨
    (∃ d, coreStep c op = nivonaMaintReevaluate { c with device := d }) ∨
    (∃ f, coreStep c op = c.onStorage f) ∨
    op = .confirm ∨ (∃ key, op = .familyCli key) ∨ ∃ key, op = .familyUi key := by
  cases op with
  | reboot it => exact absurd h Bool.false_ne_true
  | brewStart pv twoCups => exact absurd h Bool.false_ne_true
  | cycleStart kind => exact absurd h Bool.false_ne_true
  | brewCancel => exact absurd h Bool.false_ne_true
  | cycleCancel => exact absurd h Bool.false_ne_true
  | brewTask i => exact absurd h Bool.false_ne_true
  | cycleTask i => exact absurd h Bool.false_ne_true
  | confirm => simp
  | familyCli key => simp
  | familyUi key => simp
  | tank name pct =>
      simp only [coreStep, cmdTank]
      split
      · exact .inl rfl
      · exact .inr (.inl ⟨_, rfl⟩)
  | fix name =>
      simp only [coreStep, cmdFix]
      split
      · exact .inl rfl
      · exact .inr (.inl ⟨_, rfl⟩)
  | part name state =>
      simp only [coreStep, cmdPart]
      split
      · exact .inl rfl
      · exact .inr (.inl ⟨_, rfl⟩)
  | refillWater => exact .inr (.inl ⟨_, rfl⟩)
  | refillBeans => exact .inr (.inl ⟨_, rfl⟩)
  | emptyTray => exact .inr (.inl ⟨_, rfl⟩)
  | setNum id value => exact .inr (.inr (.inl ⟨_, rfl⟩))
  | setAlpha id data => exact .inr (.inr (.inl ⟨_, rfl⟩))
  | eraseNum id => exact .inr (.inr (.inl ⟨_, rfl⟩))

/-- They touch neither module. -/
theorem coreStep_quiet (c : Core) {op : Op} (h : op.quiet = true) :
    (coreStep c op).brew = c.brew ∧ (coreStep c op).cycle = c.cycle := by
  rcases coreStep_quiet_cases c h with
    he | ⟨d, he⟩ | ⟨f, he⟩ | rfl | ⟨key, rfl⟩ | ⟨key, rfl⟩
  · rw [he]
    exact ⟨rfl, rfl⟩
  · rw [he]
    exact ⟨rfl, rfl⟩
  · rw [he]
    exact ⟨rfl, rfl⟩
  · exact nivonaMaintHandleConfirm_modules c
  · simp only [coreStep, cmdFamily]
    split <;> exact ⟨rfl, rfl⟩
  · exact ⟨rfl, rfl⟩

/-- A repair touches tanks, parts and flash alone. -/
theorem fixTarget_frame {d d' : Device} {name : String} (h : fixTarget d name = some d') :
    d'.num = d.num ∧ d'.family = d.family := by
  rw [fixTarget] at h
  split_ifs at h
  · obtain rfl := Option.some.inj h
    exact ⟨rfl, rfl⟩
  · obtain rfl := Option.some.inj h
    exact ⟨rfl, rfl⟩
  · obtain rfl := Option.some.inj h
    exact ⟨rfl, rfl⟩
  · obtain rfl := Option.some.inj h
    exact ⟨rfl, rfl⟩
  · obtain rfl := Option.some.inj h
    exact ⟨rfl, rfl⟩
  · obtain ⟨p, -, rfl⟩ := Option.map_eq_some_iff.mp h
    exact ⟨rfl, rfl⟩

/-- Neither a restart nor a choice of the family. -/
def Op.keepsFamily : Op → Bool
  | .reboot _ | .familyCli _ | .familyUi _ => false
  | _ => true

/-- Nothing else changes the family. -/
theorem coreStep_family (c : Core) {op : Op} (h : op.keepsFamily = true) :
    (coreStep c op).device.family = c.device.family := by
  cases op with
  | reboot it => exact absurd h Bool.false_ne_true
  | familyCli key => exact absurd h Bool.false_ne_true
  | familyUi key => exact absurd h Bool.false_ne_true
  | brewStart pv twoCups =>
      rcases nivonaBrewStart_cases c pv twoCups with he | ⟨-, -, sel, recipe, he⟩
      · rw [coreStep, he]
      · obtain ⟨brew, taskResults, -, hc⟩ := brewCommit_frame c sel recipe twoCups
        rw [coreStep, he, hc]
  | cycleStart kind =>
      rcases nivonaMaintCycleStart_cases c kind with he | ⟨-, he⟩
      · rw [coreStep, he]
      · obtain ⟨cycle, taskResults, -, hc⟩ := cycleCommit_frame c kind
        rw [coreStep, he, hc]
  | brewCancel =>
      obtain ⟨cancel, he⟩ := nivonaBrewCancel_frame c
      rw [coreStep, he]
  | cycleCancel =>
      obtain ⟨cancel, he⟩ := nivonaMaintCycleCancel_frame c
      rw [coreStep, he]
  | confirm =>
      simp only [coreStep, nivonaMaintHandleConfirm]
      split
      · rfl
      · split <;> rfl
  | brewTask i => exact brewTask_family c i
  | cycleTask i => exact cycleTask_family c i
  | tank name pct => simp only [coreStep, cmdTank]; split <;> rfl
  | fix name =>
      simp only [coreStep, cmdFix]
      split
      · rfl
      · rename_i d hfix
        exact (fixTarget_frame hfix).2
  | part name state => simp only [coreStep, cmdPart]; split <;> rfl
  | _ => rfl

theorem appMain_brew (it : NvsIterator) (nvs : Nvs) (taskResults : ℕ → Bool) :
    (appMain it nvs taskResults).brew =
      { (Core.powerOn nvs taskResults).brew with lockReady := true } :=
  (nivonaMaintColdStart_modules _).1

theorem appMain_cycle (it : NvsIterator) (nvs : Nvs) (taskResults : ℕ → Bool) :
    (appMain it nvs taskResults).cycle =
      { (Core.powerOn nvs taskResults).cycle with lockReady := true } :=
  (nivonaMaintColdStart_modules _).2

/-- What `app_main` makes of the flash. -/
theorem appMain_device (it : NvsIterator) (nvs : Nvs) (taskResults : ℕ → Bool) :
    (appMain it nvs taskResults).device = Device.boot it nvs := by
  simp only [appMain, nivonaMaintColdStart]
  split <;> rfl

end Nivona
