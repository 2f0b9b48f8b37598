import NivonaEmulator.Ui

/-!
# What the home screen shows

A poll repaints the dot, the tile, the bar and the strip only when the values behind
them differ from the remembered ones.  In every run this leaves the home screen as an
unconditional repaint would leave it, except that READY names the family of the reading
that last changed the tile.
-/

namespace Nivona

/-! ## Remembered values that no reading has -/

/-- A level of 255 has been there before; nothing but the flash can bring it. -/
def Device.FullFrom (built : Consumable → UInt8) (d : Device) : Prop :=
  ∀ k, d.levels k = 0xff → built k = 0xff

/-- What the initial values of the cache rely on. -/
structure Readable (built : Consumable → UInt8) (c : Core) : Prop where
  sub : c.status.subProcess ≠ -1
  levels : c.device.FullFrom built

theorem clamp8_ne_full (v : ℤ) : clamp8 v ≠ 0xff := by
  intro h
  have hle := clamp8_le v
  rw [h] at hle
  exact absurd hle (by decide)

section

variable {built : Consumable → UInt8} {d d' : Device}

/-- A level that is clamped is no level of 255. -/
theorem Device.FullFrom.update (h : d.FullFrom built) {c : Consumable} {v : ℤ}
    (hlevels : d'.levels = Function.update d.levels c (clamp8 v)) : d'.FullFrom built := by
  intro k hk
  rw [hlevels] at hk
  by_cases hkc : k = c
  · subst hkc
    rw [Function.update_self] at hk
    exact absurd hk (clamp8_ne_full v)
  · rw [Function.update_of_ne hkc] at hk
    exact h k hk

theorem Device.FullFrom.set (h : d.FullFrom built) (c : Consumable) (pct : UInt8) :
    (nivonaConsumableSet d c pct).FullFrom built :=
  h.update rfl

theorem Device.FullFrom.adjust (h : d.FullFrom built) (c : Consumable) (delta : ℤ) :
    (nivonaConsumableAdjust d c delta).FullFrom built :=
  h.update rfl

theorem fullFrom_consumablesReset (d : Device) : (nivonaConsumablesReset d).FullFrom built := by
  intro k hk
  have hne : (nivonaConsumablesReset d).levels k ≠ 0xff := by
    cases k <;> simp [nivonaConsumablesReset, persist]
  exact absurd hk hne

theorem Device.FullFrom.consumeStage (h : d.FullFrom built) (sub : SubProcess) :
    (consumeStage d sub).FullFrom built := by
  cases sub with
  | grinding => exact (h.adjust _ _).adjust _ _
  | coffee => exact h.adjust _ _
  | steam => exact h.adjust _ _
  | water => exact h.adjust _ _
  | idle => exact h
  | prepare => exact h

theorem Device.FullFrom.fixTarget (h : d.FullFrom built) {name : String}
    (hfix : fixTarget d name = some d') : d'.FullFrom built := by
  rw [Nivona.fixTarget] at hfix
  split_ifs at hfix
  · obtain rfl := Option.some.inj hfix
    exact h.set _ _
  · obtain rfl := Option.some.inj hfix
    exact h.set _ _
  · obtain rfl := Option.some.inj hfix
    exact h.set _ _
  · obtain rfl := Option.some.inj hfix
    exact h.set _ _
  · obtain rfl := Option.some.inj hfix
    exact fullFrom_consumablesReset d
  · obtain ⟨p, -, rfl⟩ := Option.map_eq_some_iff.mp hfix
    exact h

end

theorem selector_ne (sel : UInt8) : sel.toUInt16.toInt16 ≠ -1 := by
  intro h
  have huint : sel.toUInt16 = 65535 := congrArg Int16.toUInt16 h
  have hnat : sel.toNat = 65535 := by
    rw [← UInt8.toNat_toUInt16, huint]
    rfl
  have hlt := sel.toNat_lt
  omega

theorem SubProcess.code_ne (sub : SubProcess) : sub.code ≠ -1 := by
  cases sub <;> decide

section

variable {built : Consumable → UInt8} {c : Core}

theorem Readable.of_same {c' : Core} (h : Readable built c)
    (hsub : c'.status.subProcess = c.status.subProcess)
    (hlevels : c'.device.levels = c.device.levels) : Readable built c' := by
  refine ⟨hsub ▸ h.sub, ?_⟩
  intro k hk
  exact h.levels k (hlevels ▸ hk)

theorem Readable.ite {p : Prop} [Decidable p] {c' : Core} (h : Readable built c)
    (h' : Readable built c → Readable built c') : Readable built (if p then c' else c) :=
  iteInduction (fun _ => h' h) fun _ => h

theorem Readable.onStorage (h : Readable built c) (f : Storage → Storage) :
    Readable built (c.onStorage f) :=
  h.of_same rfl rfl

theorem Readable.consumableSet (h : Readable built c) (k : Consumable) (pct : UInt8) :
    Readable built (c.onDevice fun d => nivonaConsumableSet d k pct) :=
  ⟨h.sub, h.levels.set k pct⟩

theorem readable_brewTaskStep (h : Readable built c) (pc : BrewPc) :
    Readable built (brewTaskStep c pc).core := by
  have hready : (0 : Int16) ≠ -1 := by decide
  cases pc with
  | entry => exact ⟨selector_ne _, h.levels⟩
  | stage run i elapsedMs =>
      simp only [brewTaskStep]
      split
      · exact ⟨SubProcess.code_ne _, h.levels.consumeStage _⟩
      · exact h
  | tick run i stageElapsed elapsedMs =>
      simp only [brewTaskStep]
      split
      · exact h
      · split
        · exact h.of_same rfl rfl
        · exact h
  | ready run => exact ⟨hready, h.levels⟩
  | check run => exact h
  | wear run => exact h.of_same rfl rfl
  | review => exact h.of_same rfl rfl
  | cleanup => exact h.of_same rfl rfl

theorem readable_cycleComplete (h : Readable built c) (plan : CyclePlan) :
    Readable built (cycleComplete plan c) := by
  simp only [cycleComplete]
  have hcounter := h.ite (p := resolveStatCounter c.stats plan.statCounter ≠ 0) fun h =>
    h.onStorage fun s => nivonaStoreSetNum s (resolveStatCounter c.stats plan.statCounter)
      (nivonaStoreGetNum s (resolveStatCounter c.stats plan.statCounter) + 1)
  exact (((hcounter.ite fun h => h.onStorage _).ite fun h => h.onStorage _).ite
    fun h => h.consumableSet _ _).ite fun h => h.consumableSet _ _

theorem readable_cycleTaskStep (h : Readable built c) (pc : CyclePc) :
    Readable built (cycleTaskStep c pc).core := by
  have hready : (0 : Int16) ≠ -1 := by decide
  cases pc with
  | entry =>
      obtain ⟨plan, hplan, -⟩ := findPlan_isSome c.cycle.kind
      simp only [cycleTaskStep, hplan]
      split
      · exact h.of_same rfl rfl
      · exact h
  | prep plan => exact h.of_same rfl rfl
  | announce plan => exact ⟨hready, h.levels⟩
  | tick plan elapsed =>
      simp only [cycleTaskStep]
      split
      · exact h.of_same rfl rfl
      · exact h
  | check plan => exact h
  | complete plan => exact readable_cycleComplete h plan
  | ready => exact ⟨hready, h.levels⟩
  | review => exact h.of_same rfl rfl
  | cleanup => exact h.of_same rfl rfl

/-- No operation short of a restart brings them back. -/
theorem readable_coreStep (h : Readable built c) {op : Op} (hop : ∀ it, op ≠ .reboot it) :
    Readable built (coreStep c op) := by
  have hready : (0 : Int16) ≠ -1 := by decide
  cases op with
  | reboot it => exact absurd rfl (hop it)
  | brewStart pv twoCups =>
      rcases nivonaBrewStart_cases c pv twoCups with he | ⟨-, -, sel, recipe, he⟩
      · rw [coreStep, he]
        exact h
      · obtain ⟨brew, taskResults, -, hc⟩ := brewCommit_frame c sel recipe twoCups
        rw [coreStep, he, hc]
        exact h.of_same rfl rfl
  | cycleStart kind =>
      rcases nivonaMaintCycleStart_cases c kind with he | ⟨-, he⟩
      · rw [coreStep, he]
        exact h
      · obtain ⟨cycle, taskResults, -, hc⟩ := cycleCommit_frame c kind
        rw [coreStep, he, hc]
        exact h.of_same rfl rfl
  | brewCancel =>
      obtain ⟨cancel, he⟩ := nivonaBrewCancel_frame c
      rw [coreStep, he]
      exact h.of_same rfl rfl
  | cycleCancel =>
      obtain ⟨cancel, he⟩ := nivonaMaintCycleCancel_frame c
      rw [coreStep, he]
      exact h.of_same rfl rfl
  | confirm =>
      simp only [coreStep, nivonaMaintHandleConfirm]
      split
      · exact h
      · split
        · exact h.of_same rfl rfl
        · exact h.of_same rfl rfl
  | brewTask i =>
      rw [coreStep]
      rcases hpc : c.brew.tasks[i]? with _ | pc
      · rw [brewTask, hpc]
        exact h
      · obtain ⟨tasks, he⟩ := brewTask_core hpc
        rw [he]
        exact (readable_brewTaskStep h pc).of_same rfl rfl
  | cycleTask i =>
      rw [coreStep]
      rcases hpc : c.cycle.tasks[i]? with _ | pc
      · rw [cycleTask, hpc]
        exact h
      · obtain ⟨tasks, he⟩ := cycleTask_core hpc
        rw [he]
        exact (readable_cycleTaskStep h pc).of_same rfl rfl
  | tank name pct =>
      simp only [coreStep, cmdTank]
      split
      · exact h
      · exact ⟨h.sub, h.levels.set _ _⟩
  | fix name =>
      simp only [coreStep, cmdFix]
      split
      · exact h
      · rename_i d hfix
        exact ⟨h.sub, h.levels.fixTarget hfix⟩
  | part name state =>
      simp only [coreStep, cmdPart]
      split
      · exact h
      · exact h.of_same rfl rfl
  | refillWater => exact ⟨h.sub, h.levels.set _ _⟩
  | refillBeans => exact ⟨h.sub, h.levels.set _ _⟩
  | emptyTray => exact ⟨h.sub, h.levels.set _ _⟩
  | familyCli key =>
      simp only [coreStep, cmdFamily]
      split
      · exact h
      · have hsame : (nivonaFamilySet c.device key).levels = c.device.levels := by
          rw [nivonaFamilySet]
          split <;> rfl
        refine ⟨hready, ?_⟩
        intro k hk
        exact h.levels k (hsame ▸ hk)
  | familyUi key =>
      simp only [coreStep, onFamilySelect, Core.onDevice, nivonaFamilySet]
      split
      · exact h.of_same rfl rfl
      · exact h.of_same rfl rfl
  | setNum id value => exact h.of_same rfl rfl
  | setAlpha id data => exact h.of_same rfl rfl
  | eraseNum id => exact h.of_same rfl rfl

theorem readable_machineStep {m : Machine} (h : Readable built m.core) {e : Event}
    (he : e.keepsRunning = true) : Readable built (machineStep m e).core := by
  have hsim : Runs.Simulates Machine.core machineStep
      (EventGuard fun _ op => ∀ it, op ≠ Op.reboot it) coreStep
      fun _ op => ∀ it, op ≠ Op.reboot it := by
    refine simulates_core ?_
    intro c op hop it heq
    rw [heq] at hop
    exact absurd hop Bool.false_ne_true
  have hguard : EventGuard (fun _ op => ∀ it, op ≠ Op.reboot it) m e := by
    cases e with
    | op o =>
        intro it heq
        rw [heq] at he
        exact absurd he Bool.false_ne_true
    | _ => trivial
  obtain ⟨ops, hops, hcore⟩ := hsim m e hguard
  rw [hcore]
  exact Runs.Guarded.invariant (P := Readable built)
    (fun c op hc hop => readable_coreStep hc hop) hops h

theorem readable_meanwhile {m : Machine} (h : Readable built m.core) (e : Meanwhile) :
    Readable built (meanwhileStep m e).core := by
  cases e with
  | event e he => exact readable_machineStep h he
  | trigger name =>
      simp only [meanwhileStep, cmdTrigger]
      split
      · exact h
      · exact h.of_same rfl rfl

theorem readable_after {m : Machine} (h : Readable built m.core) (es : List Meanwhile) :
    Readable built (m.after es).core :=
  Runs.invariant (P := fun m : Machine => Readable built m.core)
    (fun _ e hm => readable_meanwhile hm e) h es

theorem readable_boot (env : Environment) (nvs : Nvs) :
    Readable (Machine.boot env nvs).core.device.levels (Machine.boot env nvs).core := by
  refine ⟨?_, fun _ hk => hk⟩
  have hsub : (appMain env.iterator nvs env.taskResults).status.subProcess = 0 := by
    simp only [appMain, nivonaMaintColdStart]
    split <;> rfl
  rw [Machine.boot, hsub]
  decide

/-! ## The poll -/

theorem readable_readHome {m : Machine} (h : Readable built m.core) (gaps : PollGaps) :
    Readable built (readHome m gaps).2.core :=
  readable_after (readable_after (readable_after (readable_after (readable_after
    (readable_after h _) _) _) _) _) _

theorem readable_machineOp {m : Machine} (h : Readable built m.core) {op : Op}
    (hop : ∀ it, op ≠ .reboot it) : Readable built (machineOp m op).core := by
  rw [machineOp_core]
  exact readable_coreStep h hop

theorem readable_tapStep {d : Display} (h : Readable built d.machine.core) (t : Tap) :
    Readable built (tapStep d t).machine.core := by
  cases t with
  | brewRecipe i =>
      simp only [tapStep, onBrewRecipe]
      split
      · exact h
      · exact readable_machineOp h (by simp)
  | familySelect i es => exact readable_after (readable_machineOp h (by simp)) es
  | cancel => exact readable_machineOp h (by simp)
  | confirm => exact readable_machineOp h (by simp)
  | refillWater => exact readable_machineOp h (by simp)
  | refillBeans => exact readable_machineOp h (by simp)
  | emptyTray => exact readable_machineOp h (by simp)
  | _ => exact h

theorem readable_uiStep {d : Display} (h : Readable built d.machine.core) (e : UiEvent) :
    Readable built (uiStep d e).machine.core := by
  cases e with
  | meanwhile e => exact readable_meanwhile h e
  | poll gaps =>
      simp only [uiStep, pollTimerCb]
      split
      · exact readable_readHome h gaps
      · exact h
  | tap t =>
      simp only [uiStep]
      split
      · exact readable_tapStep h t
      · exact h

end

/-! ## Repainting -/

/-- The part of the widgets that the state tile consists of. -/
structure TileView where
  tile : UInt32
  title : String
  titleColor : UInt32
  sub : String
  subColor : UInt32
  barHidden : Bool

def HomeWidgets.tileView (w : HomeWidgets) : TileView :=
  { tile := w.stateTile, title := w.stateTitle, titleColor := w.titleColor
    sub := w.stateSub, subColor := w.subColor, barHidden := w.barHidden }

def HomeWidgets.withTile (w : HomeWidgets) (v : TileView) : HomeWidgets :=
  { w with
    stateTile := v.tile, stateTitle := v.title, titleColor := v.titleColor
    stateSub := v.sub, subColor := v.subColor, barHidden := v.barHidden }

def dotColor (bleConn : Bool) : UInt32 := if bleConn then CLR_GREEN else CLR_GREY

/-- What the tile is painted as. -/
def tileOf (r : HomeReading) : TileView :=
  if r.status.manipulation ≠ 0 then
    { tile := CLR_AMBER, title := manipLabel r.status.manipulation, titleColor := 0x1a1a00
      sub := "Action required", subColor := 0x3a3a00, barHidden := true }
  else if r.brewing then
    { tile := CLR_SURFACE, title := "BREWING", titleColor := CLR_BLUE
      sub := subProcessLabel r.status.subProcess, subColor := CLR_TEXT_SEC, barHidden := false }
  else
    { tile := CLR_SURFACE, title := "READY", titleColor := CLR_GREEN
      sub := (familyRow r.family).key, subColor := CLR_TEXT_SEC, barHidden := true }

/-- An unconditional repaint of everything that a poll updates. -/
def repaint (w : HomeWidgets) (r : HomeReading) : HomeWidgets :=
  { w.withTile (tileOf r) with
    bleDot := dotColor r.bleConn
    barValue := if r.brewing then barOf r.status.progress else w.barValue
    brewDisabled := r.brewing || r.status.manipulation != 0
    cancelDisabled := !r.brewing
    confirmDisabled := !(r.status.manipulation != 0)
    bottomStrip := stripText r.water r.beans r.tray }

/-- What the tile is repainted for. -/
def HomeReading.tileKey (r : HomeReading) : UInt8 × Bool × Int16 × Int16 :=
  (r.status.manipulation, r.brewing, r.status.subProcess, r.status.process)

def HomeCache.tileKey (c : HomeCache) : UInt8 × Bool × Int16 × Int16 :=
  (c.manip, c.brewing, c.sub, c.process)

/-- What the strip is repainted for. -/
def HomeReading.levels (r : HomeReading) : UInt8 × UInt8 × UInt8 := (r.water, r.beans, r.tray)

def HomeCache.levels (c : HomeCache) : UInt8 × UInt8 × UInt8 := (c.water, c.beans, c.tray)

/-- The cache after a poll is what was read, but for the progress without a brew. -/
def HomeReading.cached (r : HomeReading) (c : HomeCache) : HomeCache :=
  { ble := r.bleConn, brewing := r.brewing, manip := r.status.manipulation
    progress := if r.brewing then r.status.progress else c.progress
    sub := r.status.subProcess, process := r.status.process
    water := r.water, beans := r.beans, tray := r.tray }

section

variable (h : Home) (r : HomeReading)

theorem paintTile_eq (w : HomeWidgets) : paintTile w r = w.withTile (tileOf r) := by
  rw [paintTile, tileOf]
  split
  · rfl
  · split <;> rfl

theorem pollDot_eq : pollDot h r =
    { widgets := { h.widgets with
        bleDot := if r.bleConn = h.cache.ble then h.widgets.bleDot else dotColor r.bleConn }
      cache := { h.cache with ble := r.bleConn } } := by
  rw [pollDot]
  by_cases hkey : r.bleConn = h.cache.ble
  · rw [if_neg (not_not_intro hkey), if_pos hkey, hkey]
  · rw [if_pos hkey, if_neg hkey]
    rfl

theorem pollTile_eq : pollTile h r =
    { widgets := h.widgets.withTile
        (if r.tileKey = h.cache.tileKey then h.widgets.tileView else tileOf r)
      cache := { h.cache with
        manip := r.status.manipulation, brewing := r.brewing
        sub := r.status.subProcess, process := r.status.process } } := by
  rw [pollTile]
  by_cases hkey : r.tileKey = h.cache.tileKey
  · obtain ⟨hmanip, hbrewing, hsub, hprocess⟩ :
        r.status.manipulation = h.cache.manip ∧ r.brewing = h.cache.brewing ∧
          r.status.subProcess = h.cache.sub ∧ r.status.process = h.cache.process := by
      simpa [HomeReading.tileKey, HomeCache.tileKey] using hkey
    rw [if_pos hkey, if_neg (by simp [hmanip, hbrewing, hsub, hprocess]), hmanip, hbrewing, hsub,
      hprocess]
    rfl
  · have hchanged : r.status.manipulation ≠ h.cache.manip ∨ r.brewing ≠ h.cache.brewing ∨
        r.status.subProcess ≠ h.cache.sub ∨ r.status.process ≠ h.cache.process := by
      by_contra hsame
      push Not at hsame
      apply hkey
      simp [HomeReading.tileKey, HomeCache.tileKey, hsame]
    rw [if_pos hchanged, if_neg hkey, paintTile_eq]

theorem pollBar_eq : pollBar h r =
    { widgets := { h.widgets with
        barValue := if r.brewing ∧ r.status.progress ≠ h.cache.progress then
          barOf r.status.progress else h.widgets.barValue }
      cache := { h.cache with
        progress := if r.brewing then r.status.progress else h.cache.progress } } := by
  rw [pollBar]
  by_cases hbrewing : r.brewing = true
  · by_cases hkey : r.status.progress = h.cache.progress
    · simp [hkey]
    · simp [hkey, hbrewing]
  · simp [hbrewing]

theorem pollStrip_eq : pollStrip h r =
    { widgets := { h.widgets with
        bottomStrip := if r.levels = h.cache.levels then h.widgets.bottomStrip
          else stripText r.water r.beans r.tray }
      cache := { h.cache with water := r.water, beans := r.beans, tray := r.tray } } := by
  rw [pollStrip]
  by_cases hkey : r.levels = h.cache.levels
  · obtain ⟨hwater, hbeans, htray⟩ :
        r.water = h.cache.water ∧ r.beans = h.cache.beans ∧ r.tray = h.cache.tray := by
      simpa [HomeReading.levels, HomeCache.levels] using hkey
    rw [if_pos hkey, if_neg (by simp [hwater, hbeans, htray]), hwater, hbeans, htray]
  · have hchanged : r.water ≠ h.cache.water ∨ r.beans ≠ h.cache.beans ∨
        r.tray ≠ h.cache.tray := by
      by_contra hsame
      push Not at hsame
      apply hkey
      simp [HomeReading.levels, HomeCache.levels, hsame]
    rw [if_pos hchanged, if_neg hkey]

/-- A poll, widget by widget. -/
theorem pollHome_eq : pollHome h r =
    { widgets := { h.widgets.withTile
          (if r.tileKey = h.cache.tileKey then h.widgets.tileView else tileOf r) with
        bleDot := if r.bleConn = h.cache.ble then h.widgets.bleDot else dotColor r.bleConn
        barValue := if r.brewing ∧ r.status.progress ≠ h.cache.progress then
          barOf r.status.progress else h.widgets.barValue
        brewDisabled := r.brewing || r.status.manipulation != 0
        cancelDisabled := !r.brewing
        confirmDisabled := !(r.status.manipulation != 0)
        bottomStrip := if r.levels = h.cache.levels then h.widgets.bottomStrip
          else stripText r.water r.beans r.tray }
      cache := r.cached h.cache } := by
  rw [pollHome, pollDot_eq, pollTile_eq, pollBar_eq, pollStrip_eq]
  rfl

end

/-! ## The four cached widgets -/

/-- The reading of a poll on the home screen. -/
def homeReads (d : Display) : UiEvent → Option HomeReading
  | .poll gaps => if d.ui.active = .home then some (readHome d.machine gaps).1 else none
  | _ => none

/-- The readings that the bar is about. -/
def barReads (d : Display) (e : UiEvent) : Option HomeReading :=
  (homeReads d e).filter HomeReading.brewing

/-- A new name in the header. -/
def Home.relabel (h : Home) (label : String) : Home :=
  { h with widgets := { h.widgets with modelLbl := label } }

theorem uiStep_home_of_reads {d : Display} {e : UiEvent} {r : HomeReading}
    (h : homeReads d e = some r) : (uiStep d e).ui.home = pollHome d.ui.home r := by
  cases e with
  | poll gaps =>
      simp only [homeReads] at h
      split at h
      · rename_i hactive
        obtain rfl := Option.some.inj h
        simp [uiStep, pollTimerCb, hactive]
      · exact absurd h (by simp)
  | _ => exact absurd h (by simp [homeReads])

/-- Whatever else happens names a family in the header at most. -/
theorem uiStep_home_of_none {d : Display} {e : UiEvent} (h : homeReads d e = none) :
    ∃ label, (uiStep d e).ui.home = d.ui.home.relabel label := by
  have hsame : ∃ label, d.ui.home = d.ui.home.relabel label := ⟨d.ui.home.widgets.modelLbl, rfl⟩
  cases e with
  | meanwhile e => exact hsame
  | poll gaps =>
      simp only [uiStep, pollTimerCb]
      split
      · rename_i hactive
        exact absurd h (by simp [homeReads, hactive])
      · exact hsame
  | tap t =>
      simp only [uiStep]
      split
      · cases t with
        | brewRecipe i =>
            simp only [tapStep, onBrewRecipe]
            split
            · exact hsame
            · exact hsame
        | familySelect i es => exact ⟨_, rfl⟩
        | _ => exact hsame
      · exact hsame

section

variable {κ ω : Type*} (last : Home → κ) (view : Home → ω) {key : HomeReading → κ}
  {paint : HomeReading → ω}

/-- A widget that the header does not touch and that a poll repaints for a new key. -/
theorem cached_home [DecidableEq κ]
    (hlabel : ∀ h label, last (Home.relabel h label) = last h ∧
      view (Home.relabel h label) = view h)
    (hpoll : ∀ h r, last (pollHome h r) = key r ∧
      view (pollHome h r) = if key r = last h then view h else paint r) :
    Redraw.Cached uiStep homeReads (fun d => last d.ui.home) (fun d => view d.ui.home)
      key paint := by
  refine ⟨?_, ?_, ?_⟩
  · intro d e hnone
    obtain ⟨label, hhome⟩ := uiStep_home_of_none hnone
    rw [hhome]
    exact hlabel d.ui.home label
  · intro d e r hreads hkey
    obtain ⟨hlast, hview⟩ := hpoll d.ui.home r
    rw [uiStep_home_of_reads hreads, hlast, hview, if_pos hkey]
    exact ⟨hkey, rfl⟩
  · intro d e r hreads hkey
    obtain ⟨hlast, hview⟩ := hpoll d.ui.home r
    rw [uiStep_home_of_reads hreads, hlast, hview, if_neg hkey]
    exact ⟨rfl, rfl⟩

end

theorem cachedDot :
    Redraw.Cached uiStep homeReads (fun d => d.ui.home.cache.ble)
      (fun d => d.ui.home.widgets.bleDot) HomeReading.bleConn fun r => dotColor r.bleConn := by
  refine cached_home (fun h => h.cache.ble) (fun h => h.widgets.bleDot)
    (fun _ _ => ⟨rfl, rfl⟩) fun h r => ?_
  rw [pollHome_eq]
  exact ⟨rfl, rfl⟩

theorem cachedTile :
    Redraw.Cached uiStep homeReads (fun d => d.ui.home.cache.tileKey)
      (fun d => d.ui.home.widgets.tileView) HomeReading.tileKey tileOf := by
  refine cached_home (fun h => h.cache.tileKey) (fun h => h.widgets.tileView)
    (fun _ _ => ⟨rfl, rfl⟩) fun h r => ?_
  rw [pollHome_eq]
  exact ⟨rfl, rfl⟩

theorem cachedStrip :
    Redraw.Cached uiStep homeReads (fun d => d.ui.home.cache.levels)
      (fun d => d.ui.home.widgets.bottomStrip) HomeReading.levels
      fun r => stripText r.water r.beans r.tray := by
  refine cached_home (fun h => h.cache.levels) (fun h => h.widgets.bottomStrip)
    (fun _ _ => ⟨rfl, rfl⟩) fun h r => ?_
  rw [pollHome_eq]
  exact ⟨rfl, rfl⟩

/-- The bar moves on the readings of a brew alone. -/
theorem cachedBar :
    Redraw.Cached uiStep barReads (fun d => d.ui.home.cache.progress)
      (fun d => d.ui.home.widgets.barValue) (fun r => r.status.progress)
      fun r => barOf r.status.progress := by
  refine ⟨?_, ?_, ?_⟩
  · intro d e hnone
    rcases hreads : homeReads d e with _ | r
    · obtain ⟨label, hhome⟩ := uiStep_home_of_none hreads
      rw [hhome]
      exact ⟨rfl, rfl⟩
    · have hidle : r.brewing = false := by simpa [barReads, hreads] using hnone
      rw [uiStep_home_of_reads hreads, pollHome_eq]
      simp [HomeReading.cached, hidle]
  · intro d e r hreads hkey
    obtain ⟨hreads, hbrewing⟩ := Option.filter_eq_some_iff.mp hreads
    rw [uiStep_home_of_reads hreads, pollHome_eq]
    simp [HomeReading.cached, hbrewing, hkey]
  · intro d e r hreads hkey
    obtain ⟨hreads, hbrewing⟩ := Option.filter_eq_some_iff.mp hreads
    rw [uiStep_home_of_reads hreads, pollHome_eq]
    simp [HomeReading.cached, hbrewing, hkey]

/-! ## The start -/

/-- The home screen is built with levels that account for those of 255. -/
theorem readable_uiStart {m : Machine} (hsub : m.core.status.subProcess ≠ -1)
    (gaps : StartGaps) :
    ∃ built, Readable built (nivonaUiStart m gaps).machine.core ∧
      (nivonaUiStart m gaps).ui.home = screenHomeBuild m.core.device.family
        (built .water) (built .beans) (built .tray) := by
  have hfirst : Readable m.core.device.levels m.core := ⟨hsub, fun _ hk => hk⟩
  have h₁ : Readable _ (m.after gaps.afterFamily).core :=
    ⟨(readable_after hfirst _).sub, fun _ hk => hk⟩
  have h₂ : Readable _ ((m.after gaps.afterFamily).after gaps.afterWater).core :=
    ⟨(readable_after h₁ _).sub, fun _ hk => hk⟩
  have h₃ := readable_after h₂ gaps.afterBeans
  let built : Consumable → UInt8
    | .water => (m.after gaps.afterFamily).core.device.levels .water
    | .beans => ((m.after gaps.afterFamily).after gaps.afterWater).core.device.levels .beans
    | k => (nivonaUiStart m gaps).machine.core.device.levels k
  refine ⟨built, ⟨h₃.sub, ?_⟩, rfl⟩
  intro k hk
  cases k with
  | water => exact (readable_after h₁ _).levels .water (h₃.levels .water hk)
  | beans => exact h₃.levels .beans hk
  | tray => exact hk
  | filter => exact hk

/-- What is read agrees with the values that the cache relies on. -/
theorem readable_reading {built : Consumable → UInt8} {m : Machine}
    (h : Readable built m.core) (gaps : PollGaps) :
    (readHome m gaps).1.status.subProcess ≠ -1 ∧
      ((readHome m gaps).1.levels = (0xff, 0xff, 0xff) →
        built .water = 0xff ∧ built .beans = 0xff ∧ built .tray = 0xff) := by
  refine ⟨h.sub, ?_⟩
  intro hfull
  obtain ⟨hwater, hbeans, htray⟩ : (readHome m gaps).1.water = 0xff ∧
      (readHome m gaps).1.beans = 0xff ∧ (readHome m gaps).1.tray = 0xff := by
    simpa [HomeReading.levels] using hfull
  have h₄ := readable_after (readable_after (readable_after (readable_after h
    gaps.afterStatus) gaps.afterFamily) gaps.afterBrewing) gaps.afterBle
  have h₅ := readable_after h₄ gaps.afterWater
  have h₆ := readable_after h₅ gaps.afterBeans
  exact ⟨h₄.levels _ hwater, h₅.levels _ hbeans, h₆.levels _ htray⟩

/-! ## A run of the screen -/

/-- The screen after `app_main`, a while of other tasks and `nivona_ui_start`. -/
def Display.boot (env : Environment) (nvs : Nvs) (before : List Meanwhile) (start : StartGaps) :
    Display :=
  nivonaUiStart ((Machine.boot env nvs).after before) start

theorem tileOf_eq_of_key {r shown : HomeReading} (h : r.tileKey = shown.tileKey) :
    tileOf shown = tileOf { r with family := shown.family } := by
  obtain ⟨hmanip, hbrewing, hsub, -⟩ : r.status.manipulation = shown.status.manipulation ∧
      r.brewing = shown.brewing ∧ r.status.subProcess = shown.status.subProcess ∧
      r.status.process = shown.status.process := by
    simpa [HomeReading.tileKey] using h
  simp only [tileOf, hmanip, hbrewing, hsub]

section

variable {built : Consumable → UInt8} {fam : FamilyId} {d₀ : Display}

/-- The last reading of a run that ends with a poll on the home screen. -/
theorem getLast?_readings {reads : Display → UiEvent → Option HomeReading}
    {events : List UiEvent} {e : UiEvent} {r : HomeReading}
    (hreads : reads (Runs.run uiStep d₀ events) e = some r) :
    (Redraw.readings uiStep reads d₀ (events ++ [e])).getLast? = some r := by
  rw [Redraw.readings_append]
  simp [Redraw.readings, hreads]

theorem shows_dot
    (hbuilt : d₀.ui.home = screenHomeBuild fam (built .water) (built .beans) (built .tray))
    {events : List UiEvent} {r : HomeReading}
    (hlast : (Redraw.readings uiStep homeReads d₀ events).getLast? = some r) :
    (Runs.run uiStep d₀ events).ui.home.widgets.bleDot = dotColor r.bleConn := by
  refine cachedDot.view_run_last (fun a b h => by rw [h]) ?_ hlast
  intro hkey
  rw [hkey, hbuilt]
  rfl

theorem shows_bar
    (hbuilt : d₀.ui.home = screenHomeBuild fam (built .water) (built .beans) (built .tray))
    {events : List UiEvent} {r : HomeReading}
    (hlast : (Redraw.readings uiStep barReads d₀ events).getLast? = some r) :
    (Runs.run uiStep d₀ events).ui.home.widgets.barValue = barOf r.status.progress := by
  refine cachedBar.view_run_last (fun a b h => by rw [h]) ?_ hlast
  intro hkey
  rw [hkey, hbuilt]
  rfl

theorem shows_strip
    (hbuilt : d₀.ui.home = screenHomeBuild fam (built .water) (built .beans) (built .tray))
    {events : List UiEvent} {r : HomeReading}
    (hfull : r.levels = (0xff, 0xff, 0xff) →
      built .water = 0xff ∧ built .beans = 0xff ∧ built .tray = 0xff)
    (hlast : (Redraw.readings uiStep homeReads d₀ events).getLast? = some r) :
    (Runs.run uiStep d₀ events).ui.home.widgets.bottomStrip =
      stripText r.water r.beans r.tray := by
  have hlevels {a b : HomeReading} (h : a.levels = b.levels) :
      a.water = b.water ∧ a.beans = b.beans ∧ a.tray = b.tray := by
    simpa [HomeReading.levels] using h
  refine cachedStrip.view_run_last (fun a b h => ?_) ?_ hlast
  · obtain ⟨hwater, hbeans, htray⟩ := hlevels h
    rw [hwater, hbeans, htray]
  · intro hkey
    rw [hbuilt] at hkey
    obtain ⟨hwater, hbeans, htray⟩ := hfull hkey
    obtain ⟨hw, hb, ht⟩ : r.water = 0xff ∧ r.beans = 0xff ∧ r.tray = 0xff := by
      simpa [HomeReading.levels, HomeCache.levels, screenHomeBuild, HomeCache.initial] using hkey
    rw [hbuilt, hw, hb, ht]
    simp only [screenHomeBuild, hwater, hbeans, htray]

theorem shows_tile
    (hbuilt : d₀.ui.home = screenHomeBuild fam (built .water) (built .beans) (built .tray))
    {events : List UiEvent} {r : HomeReading} (hsub : r.status.subProcess ≠ -1)
    (hlast : (Redraw.readings uiStep homeReads d₀ events).getLast? = some r) :
    ∃ shown, Redraw.lastChange HomeReading.tileKey HomeCache.initial.tileKey
        (Redraw.readings uiStep homeReads d₀ events) = some shown ∧
      (Runs.run uiStep d₀ events).ui.home.widgets.tileView =
        tileOf { r with family := shown.family } := by
  have hcache : d₀.ui.home.cache.tileKey = HomeCache.initial.tileKey := by
    rw [hbuilt]
    rfl
  have hview := cachedTile.view_run d₀ events
  have hkey : r.tileKey = ((Redraw.lastChange HomeReading.tileKey HomeCache.initial.tileKey
      (Redraw.readings uiStep homeReads d₀ events)).map HomeReading.tileKey).getD
        HomeCache.initial.tileKey := Redraw.lastChange_getLast? hlast
  simp only [hcache] at hview
  rcases hchange : Redraw.lastChange HomeReading.tileKey HomeCache.initial.tileKey
    (Redraw.readings uiStep homeReads d₀ events) with _ | shown
  · rw [hchange] at hkey
    have hinitial : r.status.subProcess = -1 := congrArg (fun k => k.2.2.1) hkey
    exact absurd hinitial hsub
  · rw [hchange] at hkey hview
    refine ⟨shown, rfl, hview.trans ?_⟩
    exact tileOf_eq_of_key hkey

/-- The same from any screen whose cache is as it was built. -/
theorem poll_repaints_from
    (hbuilt : d₀.ui.home = screenHomeBuild fam (built .water) (built .beans) (built .tray))
    (hread : Readable built d₀.machine.core) (events : List UiEvent) (gaps : PollGaps)
    (hactive : (Runs.run uiStep d₀ events).ui.active = .home) :
    ∃ shown, Redraw.lastChange HomeReading.tileKey HomeCache.initial.tileKey
        (Redraw.readings uiStep homeReads d₀ (events ++ [.poll gaps])) = some shown ∧
      (uiStep (Runs.run uiStep d₀ events) (.poll gaps)).ui.home.widgets =
        repaint (Runs.run uiStep d₀ events).ui.home.widgets
          { (readHome (Runs.run uiStep d₀ events).machine gaps).1 with
            family := shown.family } := by
  have hcurrent := Runs.invariant (P := fun d : Display => Readable built d.machine.core)
    (fun _ e hd => readable_uiStep hd e) hread events
  obtain ⟨hsub, hfull⟩ := readable_reading hcurrent gaps
  have hend : Runs.run uiStep d₀ (events ++ [.poll gaps]) =
      uiStep (Runs.run uiStep d₀ events) (.poll gaps) := Runs.run_append ..
  have hreads : homeReads (Runs.run uiStep d₀ events) (.poll gaps) =
      some (readHome (Runs.run uiStep d₀ events).machine gaps).1 := by
    rw [homeReads, if_pos hactive]
  have hlast := getLast?_readings hreads
  have hdot := shows_dot hbuilt hlast
  have hstrip := shows_strip hbuilt hfull hlast
  obtain ⟨shown, hshown, htile⟩ := shows_tile hbuilt hsub hlast
  have hbar (hbrewing : (readHome (Runs.run uiStep d₀ events).machine gaps).1.brewing = true) := by
    have hbarReads : barReads (Runs.run uiStep d₀ events) (.poll gaps) =
        some (readHome (Runs.run uiStep d₀ events).machine gaps).1 := by
      rw [barReads, hreads, Option.filter_some, if_pos hbrewing]
    exact shows_bar hbuilt (getLast?_readings hbarReads)
  refine ⟨shown, hshown, ?_⟩
  rw [hend, uiStep_home_of_reads hreads, pollHome_eq] at hdot hstrip htile hbar
  rw [uiStep_home_of_reads hreads, pollHome_eq]
  generalize (readHome (Runs.run uiStep d₀ events).machine gaps).1 = r at hdot hstrip htile hbar ⊢
  generalize (Runs.run uiStep d₀ events).ui.home = h at hdot hstrip htile hbar ⊢
  have htile : (if r.tileKey = h.cache.tileKey then h.widgets.tileView else tileOf r) =
      tileOf { r with family := shown.family } := htile
  have hvalue : (if r.brewing = true ∧ r.status.progress ≠ h.cache.progress then
      barOf r.status.progress else h.widgets.barValue) =
      if r.brewing then barOf r.status.progress else h.widgets.barValue := by
    by_cases hbrewing : r.brewing = true
    · rw [if_pos hbrewing]
      exact hbar hbrewing
    · rw [if_neg hbrewing, if_neg (fun h => hbrewing h.1)]
  dsimp only at hdot hstrip
  simp only [htile, hdot, hstrip, hvalue, repaint]

end

/-- In every run, whatever other tasks do between the reads, a poll leaves the home screen
as an unconditional repaint with what it has read, but for the family that READY names:
that of the reading that last changed the tile. -/
theorem poll_repaints (env : Environment) (nvs : Nvs) (before : List Meanwhile)
    (start : StartGaps) (events : List UiEvent) (gaps : PollGaps)
    (hactive : (Runs.run uiStep (.boot env nvs before start) events).ui.active = .home) :
    ∃ shown, Redraw.lastChange HomeReading.tileKey HomeCache.initial.tileKey
        (Redraw.readings uiStep homeReads (.boot env nvs before start)
          (events ++ [.poll gaps])) = some shown ∧
      (uiStep (Runs.run uiStep (.boot env nvs before start) events) (.poll gaps)).ui.home.widgets =
        repaint (Runs.run uiStep (.boot env nvs before start) events).ui.home.widgets
          { (readHome (Runs.run uiStep (.boot env nvs before start) events).machine gaps).1 with
            family := shown.family } := by
  obtain ⟨built, hread, hbuilt⟩ :=
    readable_uiStart (readable_after (readable_boot env nvs) before).sub start
  exact poll_repaints_from hbuilt hread events gaps hactive

/-- Nothing happens between the reads. -/
def PollGaps.quiet : PollGaps := ⟨[], [], [], [], [], []⟩

/-- The flush of the start is confirmed, and another family is chosen. -/
def familyChosen : List UiEvent :=
  [.tap .confirm, .poll .quiet, .tap .familyOpen, .tap (.familySelect ⟨0, by decide⟩ [])]

/-- The header names the new family and READY the old one. -/
theorem poll_repaints_familyChosen :
    let d₀ := Display.boot .benign .empty [] ⟨[], [], []⟩
    let d := Runs.run uiStep d₀ familyChosen
    (∃ shown, Redraw.lastChange HomeReading.tileKey HomeCache.initial.tileKey
        (Redraw.readings uiStep homeReads d₀ (familyChosen ++ [.poll .quiet])) = some shown ∧
      (uiStep d (.poll .quiet)).ui.home.widgets =
        repaint d.ui.home.widgets
          { (readHome d.machine .quiet).1 with family := shown.family }) ∧
      (uiStep d (.poll .quiet)).ui.home.widgets.modelLbl = "NICR 680" ∧
      (uiStep d (.poll .quiet)).ui.home.widgets.stateTitle = "READY" ∧
      (uiStep d (.poll .quiet)).ui.home.widgets.stateSub = "8000" :=
  ⟨poll_repaints .benign .empty [] ⟨[], [], []⟩ familyChosen .quiet rfl, by decide +kernel⟩

end Nivona
