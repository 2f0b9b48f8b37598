import NivonaEmulator.Exclusion
import NivonaEmulator.HardPrompt

/-!
# Tasks section by section

`brew_task`, `cycle_task` and the family switches with one access to the status or
to the family at a time: a section under the lock of the status, a look at the
family, a store to it.  Between two accesses any other task may run.  The wear of a
brew, the counters of a cycle and the review of the prompts write neither the code
nor the progress, and stay whole.
-/

namespace Nivona

/-! ## Program points -/

/-- Program points of `brew_task`, one before each section. -/
inductive BrewPoint
  | entry
  /-- before `nivona_family_current`, with the argument that was stored -/
  | family (arg : BrewArg)
  | announce (run : BrewRun)
  | clearProgress (run : BrewRun)
  | clearInfo (run : BrewRun)
  | clearPrompt (run : BrewRun)
  | announcePush (run : BrewRun)
  /-- at the test of the stage loop -/
  | stage (run : BrewRun) (i : ℕ) (elapsedMs : UInt32)
  | stageCode (run : BrewRun) (i : ℕ) (elapsedMs : UInt32) (sub : SubProcess)
  /-- at the test of the tick loop of stage `i` -/
  | tick (run : BrewRun) (i : ℕ) (stageElapsed elapsedMs : UInt32)
  | progress (run : BrewRun) (i : ℕ) (stageElapsed elapsedMs : UInt32)
  | tickPush (run : BrewRun) (i : ℕ) (stageElapsed elapsedMs : UInt32)
  | ready (run : BrewRun)
  | readyProgress (run : BrewRun)
  | check (run : BrewRun)
  | wear (run : BrewRun)
  | review
  | reviewPush
  | cleanup
  deriving DecidableEq, Repr

/-- Program points of `cycle_task`, one before each section. -/
inductive CyclePoint
  | entry
  | prep (plan : CyclePlan)
  | prepPush (plan : CyclePlan)
  | prepClear (plan : CyclePlan)
  /-- before `nivona_family_current` -/
  | family (plan : CyclePlan)
  | announce (plan : CyclePlan) (emitCode : Int16)
  | announcePush (plan : CyclePlan)
  /-- at the test of the tick loop -/
  | tick (plan : CyclePlan) (elapsed : UInt32)
  | progress (plan : CyclePlan) (elapsed : UInt32)
  | tickPush (plan : CyclePlan) (elapsed : UInt32)
  | check (plan : CyclePlan)
  | complete (plan : CyclePlan)
  /-- before the second `nivona_family_current` -/
  | readyFamily
  | ready (readyCode : Int16)
  | readyProgress
  | review
  | reviewPush
  | cleanup
  deriving DecidableEq, Repr

/-- Program points of `cmd_family` and `on_family_select`; the first resets the status
once the family is set. -/
inductive SwitchPoint
  /-- `nivona_family_set` before its store to `s_current` -/
  | select (f : FamilyId) (reset : Bool)
  | persist (f : FamilyId) (reset : Bool)
  /-- `nivona_fsm_reset_to_ready` before `nivona_family_current` -/
  | family
  | reset (f : FamilyId)
  deriving DecidableEq, Repr

/-! ## Sections -/

/-- One section of `brew_task`; a section that pushes reads the status it leaves. -/
def brewSection (c : Core) : BrewPoint → TaskStep BrewPoint
  | .entry => ⟨c, some (.family c.brew.arg), false⟩
  | .family arg =>
      ⟨c, some (.announce (brewRun { c with brew := { c.brew with arg := arg } })), false⟩
  | .announce run =>
      ⟨nivonaFsmSetProcess c run.brewCode run.arg.selector.toUInt16.toInt16,
        some (.clearProgress run), false⟩
  | .clearProgress run => ⟨nivonaFsmSetProgress c 0, some (.clearInfo run), false⟩
  | .clearInfo run => ⟨nivonaFsmSetInfo c 0, some (.clearPrompt run), false⟩
  | .clearPrompt run =>
      ⟨nivonaFsmSetManipulation c MANIP_NONE, some (.announcePush run), false⟩
  | .announcePush run => ⟨c, some (.stage run 0 0), true⟩
  | .stage run i elapsedMs =>
      match run.stages[i]?, c.brew.cancel with
      | some st, false =>
          ⟨c.onDevice fun d => consumeStage d st.sub,
            some (.stageCode run i elapsedMs st.sub), false⟩
      | _, _ => ⟨c, some (.ready run), false⟩
  | .stageCode run i elapsedMs sub =>
      ⟨nivonaFsmSetProcess c run.brewCode sub.code, some (.tick run i 0 elapsedMs), false⟩
  | .tick run i stageElapsed elapsedMs =>
      match run.stages[i]? with
      | none => ⟨c, some (.ready run), false⟩
      | some st =>
          if stageElapsed < stageMs run st ∧ c.brew.cancel = false then
            let step := min (stageMs run st - stageElapsed) TICK_MS
            ⟨c, some (.progress run i (stageElapsed + step) (elapsedMs + step)), false⟩
          else ⟨c, some (.stage run (i + 1) elapsedMs), false⟩
  | .progress run i stageElapsed elapsedMs =>
      ⟨nivonaFsmSetProgress c (progressPct elapsedMs run.totalMs),
        some (.tickPush run i stageElapsed elapsedMs), false⟩
  | .tickPush run i stageElapsed elapsedMs =>
      ⟨c, some (.tick run i stageElapsed elapsedMs), true⟩
  | .ready run => ⟨nivonaFsmSetProcess c run.readyCode 0, some (.readyProgress run), false⟩
  | .readyProgress run => ⟨nivonaFsmSetProgress c 0, some (.check run), false⟩
  | .check run => ⟨c, some (if c.brew.cancel then .review else .wear run), false⟩
  | .wear run => ⟨applyWearAfterBrew run.arg c, some .review, false⟩
  | .review => ⟨nivonaMaintReevaluate c, some .reviewPush, false⟩
  | .reviewPush => ⟨c, some .cleanup, true⟩
  | .cleanup =>
      ⟨{ c with brew := { c.brew with active := false, cancel := false } }, none, false⟩

/-- One section of `cycle_task`. -/
def cycleSection (c : Core) : CyclePoint → TaskStep CyclePoint
  | .entry =>
      match findPlan c.cycle.kind with
      | none => ⟨{ c with cycle := { c.cycle with active := false } }, none, false⟩
      | some plan => ⟨c, some (if plan.prepManip ≠ 0 then .prep plan else .family plan), false⟩
  | .prep plan =>
      ⟨nivonaFsmSetManipulation c plan.prepManip, some (.prepPush plan), false⟩
  | .prepPush plan => ⟨c, some (.prepClear plan), true⟩
  | .prepClear plan => ⟨nivonaFsmSetManipulation c MANIP_NONE, some (.family plan), false⟩
  | .family plan => ⟨c, some (.announce plan (cycleEmitCode c.family plan.kind)), false⟩
  | .announce plan emitCode =>
      ⟨nivonaFsmSetProcess c emitCode 0, some (.announcePush plan), false⟩
  | .announcePush plan => ⟨c, some (.tick plan 0), true⟩
  | .tick plan elapsed =>
      if elapsed < plan.totalMs ∧ c.cycle.cancel = false then
        ⟨c, some (.progress plan (elapsed + min (plan.totalMs - elapsed) TICK_MS)), false⟩
      else ⟨c, some (.check plan), false⟩
  | .progress plan elapsed =>
      ⟨nivonaFsmSetProgress c (progressPct elapsed plan.totalMs),
        some (.tickPush plan elapsed), false⟩
  | .tickPush plan elapsed => ⟨c, some (.tick plan elapsed), true⟩
  | .check plan =>
      ⟨c, some (if c.cycle.cancel then .readyFamily else .complete plan), false⟩
  | .complete plan => ⟨cycleComplete plan c, some .readyFamily, false⟩
  | .readyFamily => ⟨c, some (.ready c.family.processReady), false⟩
  | .ready readyCode => ⟨nivonaFsmSetProcess c readyCode 0, some .readyProgress, false⟩
  | .readyProgress => ⟨nivonaFsmSetProgress c 0, some .review, false⟩
  | .review => ⟨nivonaMaintReevaluate c, some .reviewPush, false⟩
  | .reviewPush => ⟨c, some .cleanup, true⟩
  | .cleanup =>
      ⟨{ c with cycle := { c.cycle with active := false, cancel := false } }, none, false⟩

/-- One section of a family switch, and where it stands unless it is over. -/
def switchSection (c : Core) : SwitchPoint → Core × Option SwitchPoint
  | .select f reset =>
      (c.onDevice fun d => { d with family := f }, some (.persist f reset))
  | .persist f reset =>
      (c.onDevice fun d => { d with nvs := d.nvs.set .fam KEY_FAM_CUR (.str (familyRow f).key) },
        if reset then some .family else none)
  | .family => (c, some (.reset c.device.family))
  | .reset f => ({ c with status := Status.ready (familyRow f).processReady }, none)

/-! ## The system -/

/-- The core with its tasks, the start calls and the family switches in progress; the
lists of tasks in the core itself stay empty. -/
structure Sectioned where
  core : Core
  brews : List BrewPoint
  cycles : List CyclePoint
  calls : List StartCall
  switches : List SwitchPoint

/-- An operation begins or goes on, or a start call or a family switch in progress runs
its next section. -/
inductive SectionAction
  | op (o : Op)
  | resume (i : ℕ)
  | resumeSwitch (i : ℕ)

/-- Without the tasks. -/
def Core.bare (c : Core) : Core :=
  { c with brew := { c.brew with tasks := [] }, cycle := { c.cycle with tasks := [] } }

/-- The `i`-th entry moves on or is over. -/
def advance {α : Type} (l : List α) (i : ℕ) : Option α → List α
  | some x => l.set i x
  | none => l.eraseIdx i

/-- Nothing but the core. -/
def Sectioned.idle (c : Core) : Sectioned :=
  { core := c, brews := [], cycles := [], calls := [], switches := [] }

/-- One section of a start call; the check-and-set sections may create a task. -/
def callSection (s : Sectioned) : StartCall → Sectioned
  | .brewSection sel recipe twoCups =>
      let (core, created) := brewCommit s.core sel recipe twoCups
      { s with core := core.bare, brews := if created then s.brews ++ [.entry] else s.brews }
  | .cycleSection kind =>
      let (core, created) := cycleCommit s.core kind
      { s with core := core.bare, cycles := if created then s.cycles ++ [.entry] else s.cycles }
  | _ => s

/-- A start or a switch only begins its call; tasks run their next section; a restart
leaves nothing in progress. -/
def sectionStep (s : Sectioned) : SectionAction → Sectioned
  | .op (.brewStart processValue twoCups) =>
      { s with calls := s.calls ++ [.brewEntry processValue twoCups] }
  | .op (.cycleStart kind) => { s with calls := s.calls ++ [.cyclePeek kind] }
  | .op (.familyCli key) =>
      match nivonaFamilyFind key with
      | none => s
      | some f => { s with switches := s.switches ++ [.select f true] }
  | .op (.familyUi key) =>
      match nivonaFamilyFind key with
      | none => s
      | some f => { s with switches := s.switches ++ [.select f false] }
  | .op (.reboot it) => .idle (reboot it s.core)
  | .op (.brewTask i) =>
      match s.brews[i]? with
      | none => s
      | some p =>
          let r := brewSection s.core p
          { s with core := r.core, brews := advance s.brews i r.next }
  | .op (.cycleTask i) =>
      match s.cycles[i]? with
      | none => s
      | some p =>
          let r := cycleSection s.core p
          { s with core := r.core, cycles := advance s.cycles i r.next }
  | .op o => { s with core := coreStep s.core o }
  | .resume i =>
      match s.calls[i]? with
      | none => s
      | some call =>
          let calls := advance s.calls i (startCallStep s.core call).2
          { callSection s call with calls := calls }
  | .resumeSwitch i =>
      match s.switches[i]? with
      | none => s
      | some p =>
          let r := switchSection s.core p
          { s with core := r.1, switches := advance s.switches i r.2 }

/-- The state after `app_main`. -/
def Sectioned.boot (it : NvsIterator) (nvs : Nvs) (taskResults : ℕ → Bool) : Sectioned :=
  .idle (appMain it nvs taskResults)

/-! ## What a section touches -/

/-- A section of the task leaves the other module and the family alone, and only the last
one touches the brew flags. -/
theorem brewSection_frame (c : Core) (p : BrewPoint) :
    (brewSection c p).core.brew =
        (if p = .cleanup then { c.brew with active := false, cancel := false } else c.brew) ∧
      (brewSection c p).core.cycle = c.cycle ∧
      (brewSection c p).core.device.family = c.device.family := by
  cases p with
  | stage run i elapsedMs =>
      simp only [brewSection]
      split
      · exact ⟨rfl, rfl, (consumeStage_frame c.device _).1⟩
      · exact ⟨rfl, rfl, rfl⟩
  | tick run i stageElapsed elapsedMs =>
      simp only [brewSection]
      split
      · exact ⟨rfl, rfl, rfl⟩
      · split <;> exact ⟨rfl, rfl, rfl⟩
  | _ => exact ⟨rfl, rfl, rfl⟩

theorem cycleSection_frame (c : Core) (p : CyclePoint) :
    (cycleSection c p).core.cycle =
        (if p = .cleanup then { c.cycle with active := false, cancel := false } else c.cycle) ∧
      (cycleSection c p).core.brew = c.brew ∧
      (cycleSection c p).core.device.family = c.device.family := by
  cases p with
  | entry =>
      obtain ⟨plan, hplan, -⟩ := findPlan_isSome c.cycle.kind
      simp [cycleSection, hplan]
  | tick plan elapsed =>
      simp only [cycleSection]
      split <;> exact ⟨rfl, rfl, rfl⟩
  | complete plan =>
      simp only [cycleSection]
      rw [cycleComplete_eq]
      exact ⟨rfl, rfl, cycleComplete_family plan c⟩
  | _ => exact ⟨rfl, rfl, rfl⟩

/-- A task goes on until its cleanup. -/
theorem brewSection_next (c : Core) {p : BrewPoint} (hp : p ≠ .cleanup) :
    ∃ p', (brewSection c p).next = some p' := by
  cases p with
  | stage run i elapsedMs =>
      simp only [brewSection]
      split <;> exact ⟨_, rfl⟩
  | tick run i stageElapsed elapsedMs =>
      simp only [brewSection]
      split
      · exact ⟨_, rfl⟩
      · split <;> exact ⟨_, rfl⟩
  | cleanup => exact absurd rfl hp
  | _ => exact ⟨_, rfl⟩

theorem cycleSection_next (c : Core) {p : CyclePoint} (hp : p ≠ .cleanup) :
    ∃ p', (cycleSection c p).next = some p' := by
  cases p with
  | entry =>
      obtain ⟨plan, hplan, -⟩ := findPlan_isSome c.cycle.kind
      simp only [cycleSection, hplan]
      exact ⟨_, rfl⟩
  | tick plan elapsed =>
      simp only [cycleSection]
      split <;> exact ⟨_, rfl⟩
  | cleanup => exact absurd rfl hp
  | _ => exact ⟨_, rfl⟩

/-- Code, progress and family are the same, and no cancel of a running cycle is taken
back. -/
structure Core.Kept (c c' : Core) : Prop where
  process : c'.status.process = c.status.process
  progress : c'.status.progress = c.status.progress
  family : c'.device.family = c.device.family
  cancel : c.cycle.active = true → c.cycle.cancel = true → c'.cycle.cancel = true

theorem Core.Kept.refl (c : Core) : c.Kept c := ⟨rfl, rfl, rfl, fun _ h => h⟩

/-- Neither a restart, a start, a switch nor a step of a task. -/
def Op.inPassing : Op → Bool
  | .reboot _ | .brewStart .. | .cycleStart _ | .familyCli _ | .familyUi _ | .brewTask _
  | .cycleTask _ => false
  | _ => true

theorem kept_coreStep (c : Core) {o : Op} (ho : o.inPassing = true) :
    c.Kept (coreStep c o) ∧ (coreStep c o).brew.active = c.brew.active ∧
      (coreStep c o).cycle.active = c.cycle.active ∧
      (coreStep c o).brew.tasks = c.brew.tasks ∧ (coreStep c o).cycle.tasks = c.cycle.tasks := by
  have hfamily : (coreStep c o).device.family = c.device.family := by
    apply coreStep_family
    cases o with
    | reboot it | familyCli key | familyUi key => exact absurd ho Bool.false_ne_true
    | _ => rfl
  have hquiet (hq : o.quiet = true) : c.Kept (coreStep c o) ∧
      (coreStep c o).brew.active = c.brew.active ∧
      (coreStep c o).cycle.active = c.cycle.active ∧
      (coreStep c o).brew.tasks = c.brew.tasks ∧
      (coreStep c o).cycle.tasks = c.cycle.tasks := by
    obtain ⟨hbrew, hcycle⟩ := coreStep_quiet c hq
    have hstatus : (coreStep c o).status.process = c.status.process ∧
        (coreStep c o).status.progress = c.status.progress := by
      rcases coreStep_quiet_cases c hq with
        he | ⟨d, he⟩ | ⟨write, he⟩ | rfl | ⟨key, rfl⟩ | ⟨key, rfl⟩
      · rw [he]
        exact ⟨rfl, rfl⟩
      · rw [he]
        exact ⟨rfl, rfl⟩
      · rw [he]
        exact ⟨rfl, rfl⟩
      · simp only [coreStep, nivonaMaintHandleConfirm]
        split
        · exact ⟨rfl, rfl⟩
        · split <;> exact ⟨rfl, rfl⟩
      · exact absurd ho Bool.false_ne_true
      · exact absurd ho Bool.false_ne_true
    rw [hbrew, hcycle]
    exact ⟨⟨hstatus.1, hstatus.2, hfamily, fun _ h => by rwa [hcycle]⟩, rfl, rfl, rfl, rfl⟩
  cases o with
  | brewCancel =>
      obtain ⟨cancel, he⟩ := nivonaBrewCancel_frame c
      rw [coreStep, he]
      exact ⟨⟨rfl, rfl, rfl, fun _ h => h⟩, rfl, rfl, rfl, rfl⟩
  | cycleCancel =>
      simp only [coreStep, nivonaMaintCycleCancel]
      split
      · exact ⟨⟨rfl, rfl, rfl, fun _ _ => rfl⟩, rfl, rfl, rfl, rfl⟩
      · exact ⟨.refl c, rfl, rfl, rfl, rfl⟩
  | reboot it | brewStart processValue twoCups | cycleStart kind | brewTask i
  | cycleTask i => exact absurd ho Bool.false_ne_true
  | _ => exact hquiet rfl

/-- A family switch begins. -/
def Op.selects : Op → Bool
  | .familyCli _ | .familyUi _ => true
  | _ => false

/-! ## What a step does -/

/-- The ways in which the system goes on. -/
inductive Sectioned.Change (s : Sectioned) : SectionAction → Sectioned → Prop
  | restart (it : NvsIterator) : Change s (.op (.reboot it)) (.idle (reboot it s.core))
  | kept (a : SectionAction) {core : Core} (calls : List StartCall)
      (hkept : s.core.Kept core) (hbrew : core.brew.active = s.core.brew.active)
      (hcycle : core.cycle.active = s.core.cycle.active) :
      Change s a { s with core := core, calls := calls }
  | select {o : Op} (ho : o.selects = true) (f : FamilyId) (reset : Bool) :
      Change s (.op o) { s with switches := s.switches ++ [.select f reset] }
  | brew {i : ℕ} {p : BrewPoint} (hp : s.brews[i]? = some p) :
      Change s (.op (.brewTask i)) { s with
        core := (brewSection s.core p).core
        brews := advance s.brews i (brewSection s.core p).next }
  | cycle {i : ℕ} {p : CyclePoint} (hp : s.cycles[i]? = some p) :
      Change s (.op (.cycleTask i)) { s with
        core := (cycleSection s.core p).core
        cycles := advance s.cycles i (cycleSection s.core p).next }
  | brewNew (i : ℕ) {core : Core} (calls : List StartCall) (hkept : s.core.Kept core)
      (hidle : s.core.brew.active = false) (hset : core.brew.active = true)
      (hcycle : core.cycle.active = s.core.cycle.active) :
      Change s (.resume i) { s with core := core, brews := s.brews ++ [.entry], calls := calls }
  | cycleNew (i : ℕ) {core : Core} (calls : List StartCall) (hkept : s.core.Kept core)
      (hidle : s.core.cycle.active = false) (hset : core.cycle.active = true)
      (hbrew : core.brew.active = s.core.brew.active) :
      Change s (.resume i) { s with core := core, cycles := s.cycles ++ [.entry], calls := calls }
  | switch {i : ℕ} {p : SwitchPoint} (hp : s.switches[i]? = some p) :
      Change s (.resumeSwitch i) { s with
        core := (switchSection s.core p).1
        switches := advance s.switches i (switchSection s.core p).2 }

theorem change_same (s : Sectioned) (a : SectionAction) (calls : List StartCall) :
    s.Change a { s with calls := calls } :=
  .kept a calls (.refl s.core) rfl rfl

theorem change_resume (s : Sectioned) (i : ℕ) (call : StartCall) (calls : List StartCall) :
    s.Change (.resume i) { callSection s call with calls := calls } := by
  cases call with
  | brewSection sel recipe twoCups =>
      rcases brewCommit_cases s.core sel recipe twoCups with
        ⟨-, he⟩ | ⟨hidle, -, brew, he, -, hactive, -⟩ | ⟨hidle, -, brew, he, -, hactive, -⟩
      · simp only [callSection, he]
        exact .kept _ calls ⟨rfl, rfl, rfl, fun _ h => h⟩ rfl rfl
      · simp only [callSection, he]
        exact .kept _ calls ⟨rfl, rfl, rfl, fun _ h => h⟩ (hactive.trans hidle.symm) rfl
      · simp only [callSection, he]
        exact .brewNew i calls ⟨rfl, rfl, rfl, fun _ h => h⟩ hidle hactive rfl
  | cycleSection kind =>
      rcases cycleCommit_cases s.core kind with
        ⟨-, he⟩ | ⟨hidle, -, cycle, he, -, hactive, -⟩ | ⟨hidle, -, cycle, he, -, hactive, -⟩
      · simp only [callSection, he]
        exact .kept _ calls ⟨rfl, rfl, rfl, fun _ h => h⟩ rfl rfl
      · simp only [callSection, he]
        refine .kept _ calls ⟨rfl, rfl, rfl, ?_⟩ rfl (hactive.trans hidle.symm)
        intro hset
        exact absurd (hidle.symm.trans hset) Bool.false_ne_true
      · simp only [callSection, he]
        refine .cycleNew i calls ⟨rfl, rfl, rfl, ?_⟩ hidle hactive rfl
        intro hset
        exact absurd (hidle.symm.trans hset) Bool.false_ne_true
  | _ => exact change_same s _ calls

theorem change_sectionStep (s : Sectioned) (a : SectionAction) : s.Change a (sectionStep s a) := by
  have hnone (a : SectionAction) : s.Change a s := change_same s a s.calls
  have hpassing {o : Op} (ho : o.inPassing = true) :
      s.Change (.op o) { s with core := coreStep s.core o } := by
    obtain ⟨hkept, hbrew, hcycle, -⟩ := kept_coreStep s.core ho
    exact .kept _ s.calls hkept hbrew hcycle
  cases a with
  | op o =>
      cases o with
      | reboot it => exact .restart it
      | brewStart processValue twoCups => exact change_same s _ _
      | cycleStart kind => exact change_same s _ _
      | familyCli key =>
          simp only [sectionStep]
          split
          · exact hnone _
          · exact .select rfl _ true
      | familyUi key =>
          simp only [sectionStep]
          split
          · exact hnone _
          · exact .select rfl _ false
      | brewTask i =>
          simp only [sectionStep]
          split
          · exact hnone _
          · rename_i p hp
            exact .brew hp
      | cycleTask i =>
          simp only [sectionStep]
          split
          · exact hnone _
          · rename_i p hp
            exact .cycle hp
      | _ => exact hpassing rfl
  | resume i =>
      simp only [sectionStep]
      split
      · exact hnone _
      · exact change_resume s i _ _
  | resumeSwitch i =>
      simp only [sectionStep]
      split
      · exact hnone _
      · rename_i p hp
        exact .switch hp

/-! ## One task each -/

/-- Each module has at most one task, and none while its flag is clear. -/
structure Sectioned.Single (s : Sectioned) : Prop where
  brew : OneTask s.core.brew.active s.brews
  cycle : OneTask s.core.cycle.active s.cycles

theorem OneTask.advance_some {Pc : Type} {active : Bool} {tasks : List Pc}
    (h : OneTask active tasks) (i : ℕ) (pc : Pc) : OneTask active (advance tasks i (some pc)) := by
  refine ⟨?_, fun hidle => ?_⟩
  · rw [advance, List.length_set]
    exact h.1
  · rw [h.2 hidle]
    rfl

theorem OneTask.advance_none {Pc : Type} {active : Bool} {tasks : List Pc} {i : ℕ} {pc : Pc}
    (h : OneTask active tasks) (hpc : tasks[i]? = some pc) :
    OneTask false (advance tasks i none) := by
  obtain ⟨rfl, rfl⟩ := h.eq_singleton hpc
  exact ⟨Nat.zero_le 1, fun _ => rfl⟩

theorem single_idle {c : Core} : (Sectioned.idle c).Single :=
  ⟨⟨Nat.zero_le 1, fun _ => rfl⟩, ⟨Nat.zero_le 1, fun _ => rfl⟩⟩

theorem Sectioned.Single.step {s : Sectioned} (h : s.Single) (a : SectionAction) :
    (sectionStep s a).Single := by
  have hchange := change_sectionStep s a
  generalize sectionStep s a = s' at hchange ⊢
  obtain ⟨hb, hc⟩ := h
  cases hchange with
  | restart it => exact single_idle
  | kept a calls hkept hbrew hcycle => exact ⟨hbrew ▸ hb, hcycle ▸ hc⟩
  | select ho f reset => exact ⟨hb, hc⟩
  | @brew i p hp =>
      obtain ⟨hflags, hother, -⟩ := brewSection_frame s.core p
      refine ⟨?_, by rw [hother]; exact hc⟩
      rw [hflags]
      by_cases hclean : p = .cleanup
      · rw [if_pos hclean, hclean]
        exact hb.advance_none hp
      · obtain ⟨p', hnext⟩ := brewSection_next s.core hclean
        rw [if_neg hclean, hnext]
        exact hb.advance_some i p'
  | @cycle i p hp =>
      obtain ⟨hflags, hother, -⟩ := cycleSection_frame s.core p
      refine ⟨by rw [hother]; exact hb, ?_⟩
      rw [hflags]
      by_cases hclean : p = .cleanup
      · rw [if_pos hclean, hclean]
        exact hc.advance_none hp
      · obtain ⟨p', hnext⟩ := cycleSection_next s.core hclean
        rw [if_neg hclean, hnext]
        exact hc.advance_some i p'
  | brewNew i calls hkept hidle hset hcycle =>
      refine ⟨?_, hcycle ▸ hc⟩
      rw [hset]
      exact hb.created hidle
  | cycleNew i calls hkept hidle hset hbrew =>
      refine ⟨hbrew ▸ hb, ?_⟩
      rw [hset]
      exact hc.created hidle
  | @switch i p hp =>
      cases p with
      | _ => exact ⟨hb, hc⟩

end Nivona
