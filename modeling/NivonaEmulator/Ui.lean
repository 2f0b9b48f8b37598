import NivonaEmulator.Lib.Redraw
import NivonaEmulator.InStep

/-!
# Touch screen

The home screen with the values its poll timer remembers, and the three screens that
open from it.  A poll reads the modules one after another while other tasks go on, and
repaints what has changed.  Positions, fonts and the texts that never change are left
out.
-/

namespace Nivona

/-! ## Texts and colours -/

def CLR_SURFACE : UInt32 := 0x1e2130
def CLR_GREEN : UInt32 := 0x27ae60
def CLR_AMBER : UInt32 := 0xe67e22
def CLR_BLUE : UInt32 := 0x2980b9
def CLR_GREY : UInt32 := 0x4a4a5a
def CLR_TEXT_SEC : UInt32 := 0x95a5a6

/-- The `model` column of `NIVONA_FAMILIES`. -/
def NIVONA_FAMILY_MODELS : Vector String 8 :=
  #v["NICR 680", "NICR 759", "NICR 795", "NICR 930", "NICR 970", "NICR 1030", "NICR 1040",
    "NIVO 8107"]

def familyModel (f : FamilyId) : String := NIVONA_FAMILY_MODELS.get f

/-- The names of a family's recipes, in the order of its table. -/
def NIVONA_RECIPE_NAMES : Vector (List String) 8 :=
  #v[["Espresso", "Coffee", "Americano", "Cappuccino", "Frothy Milk", "Hot Water"],
    ["Espresso", "Cream", "Lungo", "Americano", "Cappuccino", "Latte Macchiato", "Milk",
      "Hot Water"],
    ["Espresso", "Coffee", "Americano", "Cappuccino", "Latte Macchiato", "Milk", "Hot Water"],
    ["Espresso", "Coffee", "Americano", "Cappuccino", "Caffè Latte", "Latte Macchiato",
      "Hot Milk", "Hot Water"],
    ["Espresso", "Coffee", "Americano", "Cappuccino", "Caffè Latte", "Latte Macchiato",
      "Hot Milk", "Hot Water"],
    ["Espresso", "Coffee", "Americano", "Cappuccino", "Caffè Latte", "Latte Macchiato",
      "Hot Water", "Warm Milk", "Hot Milk", "Frothy Milk"],
    ["Espresso", "Coffee", "Americano", "Cappuccino", "Caffè Latte", "Latte Macchiato",
      "Hot Water", "Warm Milk", "Frothy Milk"],
    ["Espresso", "Coffee", "Americano", "Cappuccino", "Caffè Latte", "Latte Macchiato", "Milk",
      "Hot Water", "Chilled Espresso", "Chilled Lungo", "Chilled Americano"]]

def recipeNames (f : FamilyId) : List String := NIVONA_RECIPE_NAMES.get f

def manipLabel (m : UInt8) : String :=
  if m = 1 then "REMOVE GROUNDS"
  else if m = 2 then "CHECK TRAYS"
  else if m = 3 then "EMPTY TRAYS"
  else if m = 4 then "FILL WATER"
  else if m = 5 then "CLOSE LID"
  else if m = 6 then "FILL BEANS"
  else if m = 11 then "MOVE CUP"
  else if m = 20 then "FLUSH"
  else "CHECK MACHINE"

def subProcessLabel (sp : Int16) : String :=
  if sp = 0 then "Idle"
  else if sp = 1 then "Grinding"
  else if sp = 2 then "Brewing"
  else if sp = 3 then "Steaming"
  else if sp = 4 then "Hot water"
  else if sp = 5 then "Prepare"
  else "—"

/-- The bottom strip; three digits a level at most, so the 48 bytes suffice. -/
def stripText (water beans tray : UInt8) : String :=
  s!"W:{water}%  B:{beans}%  T:{tray}%"

/-! ## Home screen -/

/-- What a poll reads. -/
structure HomeReading where
  status : Status
  family : FamilyId
  brewing : Bool
  bleConn : Bool
  water : UInt8
  beans : UInt8
  tray : UInt8

/-- The widgets that a poll updates; the text of the family tile, which none does, too. -/
structure HomeWidgets where
  bleDot : UInt32
  modelLbl : String
  stateTile : UInt32
  stateTitle : String
  titleColor : UInt32
  stateSub : String
  subColor : UInt32
  barHidden : Bool
  barValue : Int16
  brewDisabled : Bool
  cancelDisabled : Bool
  confirmDisabled : Bool
  famLbl : String
  bottomStrip : String
  deriving DecidableEq, Repr

/-- The `g_last_*` variables. -/
structure HomeCache where
  ble : Bool
  brewing : Bool
  manip : UInt8
  progress : Int16
  sub : Int16
  process : Int16
  water : UInt8
  beans : UInt8
  tray : UInt8
  deriving DecidableEq, Repr

def HomeCache.initial : HomeCache :=
  { ble := false, brewing := false, manip := 0xff, progress := -1, sub := -1, process := -999
    water := 0xff, beans := 0xff, tray := 0xff }

structure Home where
  widgets : HomeWidgets
  cache : HomeCache
  deriving DecidableEq, Repr

/-- The home screen as it is built once. -/
def screenHomeBuild (fam : FamilyId) (water beans tray : UInt8) : Home :=
  { widgets :=
      { bleDot := CLR_GREY
        modelLbl := familyModel fam
        stateTile := CLR_SURFACE
        stateTitle := "READY"
        titleColor := CLR_GREEN
        stateSub := (familyRow fam).key
        subColor := CLR_TEXT_SEC
        barHidden := true
        barValue := 0
        brewDisabled := false
        cancelDisabled := true
        confirmDisabled := true
        famLbl := "FAMILY  " ++ familyModel fam ++ "  >"
        bottomStrip := stripText water beans tray }
    cache := .initial }

def pollDot (h : Home) (r : HomeReading) : Home :=
  if r.bleConn ≠ h.cache.ble then
    { widgets := { h.widgets with bleDot := if r.bleConn then CLR_GREEN else CLR_GREY }
      cache := { h.cache with ble := r.bleConn } }
  else h

/-- The state tile: a prompt, else a brew, else READY. -/
def paintTile (w : HomeWidgets) (r : HomeReading) : HomeWidgets :=
  if r.status.manipulation ≠ 0 then
    { w with
      stateTile := CLR_AMBER
      stateTitle := manipLabel r.status.manipulation
      titleColor := 0x1a1a00
      stateSub := "Action required"
      subColor := 0x3a3a00
      barHidden := true }
  else if r.brewing then
    { w with
      stateTile := CLR_SURFACE
      stateTitle := "BREWING"
      titleColor := CLR_BLUE
      stateSub := subProcessLabel r.status.subProcess
      subColor := CLR_TEXT_SEC
      barHidden := false }
  else
    { w with
      stateTile := CLR_SURFACE
      stateTitle := "READY"
      titleColor := CLR_GREEN
      stateSub := (familyRow r.family).key
      subColor := CLR_TEXT_SEC
      barHidden := true }

def pollTile (h : Home) (r : HomeReading) : Home :=
  if r.status.manipulation ≠ h.cache.manip ∨ r.brewing ≠ h.cache.brewing ∨
      r.status.subProcess ≠ h.cache.sub ∨ r.status.process ≠ h.cache.process then
    { widgets := paintTile h.widgets r
      cache := { h.cache with
        manip := r.status.manipulation
        brewing := r.brewing
        sub := r.status.subProcess
        process := r.status.process } }
  else h

/-- The value shown for a progress. -/
def barOf (progress : Int16) : Int16 :=
  let prog := if progress < 0 then 0 else progress
  if prog > 100 then 100 else prog

def pollBar (h : Home) (r : HomeReading) : Home :=
  if r.brewing ∧ r.status.progress ≠ h.cache.progress then
    { widgets := { h.widgets with barValue := barOf r.status.progress }
      cache := { h.cache with progress := r.status.progress } }
  else h

def pollButtons (h : Home) (r : HomeReading) : Home :=
  let promptActive := r.status.manipulation != 0
  { h with widgets := { h.widgets with
      brewDisabled := r.brewing || promptActive
      cancelDisabled := !r.brewing
      confirmDisabled := !promptActive } }

def pollStrip (h : Home) (r : HomeReading) : Home :=
  if r.water ≠ h.cache.water ∨ r.beans ≠ h.cache.beans ∨ r.tray ≠ h.cache.tray then
    { widgets := { h.widgets with bottomStrip := stripText r.water r.beans r.tray }
      cache := { h.cache with water := r.water, beans := r.beans, tray := r.tray } }
  else h

/-- `poll_timer_cb` with the values it has read. -/
def pollHome (h : Home) (r : HomeReading) : Home :=
  pollStrip (pollButtons (pollBar (pollTile (pollDot h r) r) r) r) r

/-! ## What other tasks do meanwhile -/

/-- The prompt that `trigger <name>` raises. -/
def triggerManip (name : String) : Option UInt8 :=
  if name = "none" then some MANIP_NONE
  else if name = "bu_removed" then some MANIP_BU_REMOVED
  else if name = "trays_missing" then some MANIP_TRAYS_MISSING
  else if name = "empty_trays" then some MANIP_EMPTY_TRAYS
  else if name = "fill_water" then some MANIP_FILL_WATER
  else if name = "close_powder" then some MANIP_CLOSE_POWDER_LID
  else if name = "fill_powder" then some MANIP_FILL_POWDER
  else if name = "move_cup" then some MANIP_MOVE_CUP
  else if name = "flush" then some MANIP_FLUSH_REQUIRED
  else if name = "water_empty" then some MANIP_FILL_WATER
  else if name = "tray_full" then some MANIP_EMPTY_TRAYS
  else if name = "beans_empty" then some MANIP_NONE
  else if name = "clean" then some MANIP_FLUSH_REQUIRED
  else if name = "descale" then some MANIP_FLUSH_REQUIRED
  else none

/-- `trigger <name>` of the console. -/
def cmdTrigger (c : Core) (name : String) : Core :=
  match triggerManip name with
  | none => c
  | some m => nivonaFsmSetManipulation c m

/-- Anything short of a restart. -/
inductive Meanwhile
  | event (e : Event) (running : e.keepsRunning = true)
  | trigger (name : String)

def meanwhileStep (m : Machine) : Meanwhile → Machine
  | .event e _ => machineStep m e
  | .trigger name => { m with core := cmdTrigger m.core name }

/-- The machine after other tasks had their turn. -/
def Machine.after (m : Machine) (es : List Meanwhile) : Machine :=
  Runs.run meanwhileStep m es

/-- What happens between one read of a poll and the next. -/
structure PollGaps where
  afterStatus : List Meanwhile
  afterFamily : List Meanwhile
  afterBrewing : List Meanwhile
  afterBle : List Meanwhile
  afterWater : List Meanwhile
  afterBeans : List Meanwhile

/-- The reads of a poll, in their order, and the machine after them. -/
def readHome (m : Machine) (gaps : PollGaps) : HomeReading × Machine :=
  let m₁ := m.after gaps.afterStatus
  let m₂ := m₁.after gaps.afterFamily
  let m₃ := m₂.after gaps.afterBrewing
  let m₄ := m₃.after gaps.afterBle
  let m₅ := m₄.after gaps.afterWater
  let m₆ := m₅.after gaps.afterBeans
  ({ status := m.core.status
     family := m₁.core.device.family
     brewing := nivonaBrewActive m₂.core
     bleConn := m₃.link.frame.handshakeDone
     water := nivonaConsumableGet m₄.core.device .water
     beans := nivonaConsumableGet m₅.core.device .beans
     tray := nivonaConsumableGet m₆.core.device .tray }, m₆)

/-! ## Screens -/

inductive Screen
  | home | brew | refill | family
  deriving DecidableEq, Repr

/-- `brew_ud_t`. -/
structure BrewUd where
  selector : Int16
  twoCups : Bool
  deriving DecidableEq, Repr

structure Ui where
  active : Screen
  home : Home
  /-- rows of the brew picker: the text, and the entry of `brewUd` the row points to -/
  brewRows : List (String × Fin 32)
  /-- `g_brew_ud` -/
  brewUd : Vector BrewUd 32
  /-- texts of the rows of the family picker; row `i` carries the key of family `i` -/
  familyRows : List String

structure Display where
  machine : Machine
  ui : Ui

/-- The recipes of a family with their names. -/
def namedRecipes (f : FamilyId) : List (Recipe × String) :=
  (familyRow f).recipes.zip (recipeNames f)

/-- A row for each recipe, as far as the entries go. -/
def screenBrewPickerBuild (ui : Ui) (f : FamilyId) : Ui :=
  let entries := (namedRecipes f).zip (List.finRange 32)
  { ui with
    brewRows := entries.map fun e => (e.1.2, e.2)
    brewUd := entries.foldl
      (fun ud e => ud.set e.2 { selector := e.1.1.selector.toUInt16.toInt16, twoCups := false })
      ui.brewUd }

def screenFamilyPickerBuild (ui : Ui) (cur : FamilyId) : Ui :=
  { ui with familyRows := (List.finRange 8).map fun f =>
      (if f = cur then "> " else "  ") ++ (familyRow f).key ++ "  " ++ familyModel f }

/-- What a finger can do; a tap reaches the screen that is shown. -/
inductive Tap
  | brewOpen | cancel | confirm | refillOpen | familyOpen
  | brewBack | brewRecipe (i : ℕ)
  | refillBack | refillWater | refillBeans | emptyTray
  | familyBack
  /-- other tasks have a turn between the selection and the new label -/
  | familySelect (i : FamilyId) (meanwhile : List Meanwhile)

def Tap.screen : Tap → Screen
  | .brewOpen | .cancel | .confirm | .refillOpen | .familyOpen => .home
  | .brewBack | .brewRecipe _ => .brew
  | .refillBack | .refillWater | .refillBeans | .emptyTray => .refill
  | .familyBack | .familySelect .. => .family

/-- A change of the core by a handler of the screen. -/
def Display.onCore (d : Display) (op : Op) : Display :=
  { d with machine := machineOp d.machine op }

def Display.load (d : Display) (screen : Screen) : Display :=
  { d with ui := { d.ui with active := screen } }

def onBrewOpen (d : Display) : Display :=
  { d with ui := screenBrewPickerBuild d.ui d.machine.core.device.family }.load .brew

/-- A tap on row `i` of the brew picker. -/
def onBrewRecipe (d : Display) (i : ℕ) : Display :=
  match d.ui.brewRows[i]? with
  | none => d
  | some (_, entry) =>
      let ud := d.ui.brewUd.get entry
      (d.onCore (.brewStart ud.selector ud.twoCups)).load .home

def onFamilyOpen (d : Display) : Display :=
  { d with ui := screenFamilyPickerBuild d.ui d.machine.core.device.family }.load .family

/-- Select the family of the row, name it in the header and go home. -/
def onFamilyRow (d : Display) (i : FamilyId) (meanwhile : List Meanwhile) : Display :=
  let m := (machineOp d.machine (.familyUi (familyRow i).key)).after meanwhile
  let widgets := { d.ui.home.widgets with modelLbl := familyModel m.core.device.family }
  { machine := m
    ui := { d.ui with active := .home, home := { d.ui.home with widgets := widgets } } }

def tapStep (d : Display) : Tap → Display
  | .brewOpen => onBrewOpen d
  | .cancel => d.onCore .brewCancel
  | .confirm => d.onCore .confirm
  | .refillOpen => d.load .refill
  | .familyOpen => onFamilyOpen d
  | .brewBack | .refillBack | .familyBack => d.load .home
  | .brewRecipe i => onBrewRecipe d i
  | .refillWater => d.onCore .refillWater
  | .refillBeans => d.onCore .refillBeans
  | .emptyTray => d.onCore .emptyTray
  | .familySelect i meanwhile => onFamilyRow d i meanwhile

inductive UiEvent
  | meanwhile (e : Meanwhile)
  | poll (gaps : PollGaps)
  | tap (t : Tap)

/-- `poll_timer_cb`: nothing happens unless the home screen is shown. -/
def pollTimerCb (d : Display) (gaps : PollGaps) : Display :=
  if d.ui.active = .home then
    { machine := (readHome d.machine gaps).2
      ui := { d.ui with home := pollHome d.ui.home (readHome d.machine gaps).1 } }
  else d

def uiStep (d : Display) : UiEvent → Display
  | .meanwhile e => { d with machine := meanwhileStep d.machine e }
  | .poll gaps => pollTimerCb d gaps
  | .tap t => if t.screen = d.ui.active then tapStep d t else d

/-- What happens while `screen_home_build` reads the levels. -/
structure StartGaps where
  afterFamily : List Meanwhile
  afterWater : List Meanwhile
  afterBeans : List Meanwhile

/-- `nivona_ui_start`: the home screen is built and shown. -/
def nivonaUiStart (m : Machine) (gaps : StartGaps) : Display :=
  let m₁ := m.after gaps.afterFamily
  let m₂ := m₁.after gaps.afterWater
  let m₃ := m₂.after gaps.afterBeans
  { machine := m₃
    ui :=
      { active := .home
        home := screenHomeBuild m.core.device.family
          (nivonaConsumableGet m₁.core.device .water) (nivonaConsumableGet m₂.core.device .beans)
          (nivonaConsumableGet m₃.core.device .tray)
        brewRows := [], brewUd := Vector.replicate 32 ⟨0, false⟩, familyRows := [] } }

end Nivona
