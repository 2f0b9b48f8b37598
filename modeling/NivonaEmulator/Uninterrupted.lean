import Mathlib.Data.List.InsertIdx
import NivonaEmulator.Sections

/-!
# Tasks that are not interrupted

Taken one after the other the sections of a task make up a step of the coarser task,
and those of a switch make up the switch.  So every run of the coarser system is a
run of the sections, in which the tasks are interrupted between two steps only.
-/

namespace Nivona

/-! ## Steps without interruption -/

/-- What some sections of a task do one after the other, of which the last may push. -/
inductive Solo {Pt : Type} (step : Core → Pt → TaskStep Pt) : Core → Pt → TaskStep Pt → Prop
  | last (c : Core) (p : Pt) : Solo step c p (step c p)
  | more {c c' : Core} {p p' : Pt} {r : TaskStep Pt} (hstep : step c p = ⟨c', some p', false⟩)
      (hrest : Solo step c' p' r) : Solo step c p r

/-- The section that a step of the coarser task begins with. -/
def BrewPc.point : BrewPc → BrewPoint
  | .entry => .entry
  | .stage run i elapsedMs => .stage run i elapsedMs
  | .tick run i stageElapsed elapsedMs => .tick run i stageElapsed elapsedMs
  | .ready run => .ready run
  | .check run => .check run
  | .wear run => .wear run
  | .review => .review
  | .cleanup => .cleanup

def CyclePc.point : CyclePc → CyclePoint
  | .entry => .entry
  | .prep plan => .prepClear plan
  | .announce plan => .family plan
  | .tick plan elapsed => .tick plan elapsed
  | .check plan => .check plan
  | .complete plan => .complete plan
  | .ready => .readyFamily
  | .review => .review
  | .cleanup => .cleanup

def TaskStep.map {Pc Pt : Type} (f : Pc → Pt) (r : TaskStep Pc) : TaskStep Pt :=
  ⟨r.core, r.next.map f, r.push⟩

theorem Solo.one {Pt : Type} {step : Core → Pt → TaskStep Pt} {c : Core} {p : Pt}
    {r : TaskStep Pt} (h : step c p = r) : Solo step c p r := by
  rw [← h]
  exact .last c p

/-- Without interruption the sections of a brew make up its step. -/
theorem solo_brewTaskStep (c : Core) (pc : BrewPc) :
    Solo brewSection c pc.point ((brewTaskStep c pc).map BrewPc.point) := by
  cases pc with
  | entry =>
      exact .more rfl (.more rfl (.more rfl (.more rfl (.more rfl (.more rfl (.last _ _))))))
  | stage run i elapsedMs =>
      rcases hst : run.stages[i]? with _ | st
      · exact .one (by simp [brewSection, brewTaskStep, BrewPc.point, TaskStep.map, hst])
      · by_cases hcancel : c.brew.cancel = true
        · exact .one (by
            simp [brewSection, brewTaskStep, BrewPc.point, TaskStep.map, hst, hcancel])
        · rw [Bool.not_eq_true] at hcancel
          have hstep : brewSection c (.stage run i elapsedMs) =
              ⟨c.onDevice fun d => consumeStage d st.sub,
                some (.stageCode run i elapsedMs st.sub), false⟩ := by
            simp [brewSection, hst, hcancel]
          refine .more hstep (.one ?_)
          simp [brewSection, brewTaskStep, BrewPc.point, TaskStep.map, hst, hcancel]
  | tick run i stageElapsed elapsedMs =>
      rcases hst : run.stages[i]? with _ | st
      · exact .one (by simp [brewSection, brewTaskStep, BrewPc.point, TaskStep.map, hst])
      · by_cases hgo : stageElapsed < stageMs run st ∧ c.brew.cancel = false
        · have hstep : brewSection c (.tick run i stageElapsed elapsedMs) =
              ⟨c, some (.progress run i
                (stageElapsed + min (stageMs run st - stageElapsed) TICK_MS)
                (elapsedMs + min (stageMs run st - stageElapsed) TICK_MS)), false⟩ := by
            simp [brewSection, hst, hgo]
          refine .more hstep (.more rfl (.one ?_))
          simp [brewSection, brewTaskStep, BrewPc.point, TaskStep.map, hst, hgo]
        · exact .one (by
            simp only [brewSection, brewTaskStep, BrewPc.point, TaskStep.map, hst, if_neg hgo,
              Option.map_some])
  | ready run => exact .more rfl (.last _ _)
  | check run =>
      refine .one ?_
      cases hcancel : c.brew.cancel
      · simp [brewSection, brewTaskStep, BrewPc.point, TaskStep.map, hcancel]
      · simp [brewSection, brewTaskStep, BrewPc.point, TaskStep.map, hcancel]
  | wear run => exact .last _ _
  | review => exact .more rfl (.last _ _)
  | cleanup => exact .last _ _

/-- Without interruption the sections of a cycle make up its step. -/
theorem solo_cycleTaskStep (c : Core) (pc : CyclePc) :
    Solo cycleSection c pc.point ((cycleTaskStep c pc).map CyclePc.point) := by
  cases pc with
  | entry =>
      obtain ⟨plan, hplan, -⟩ := findPlan_isSome c.cycle.kind
      by_cases hprep : plan.prepManip = 0
      · exact .one (by
          simp [cycleSection, cycleTaskStep, CyclePc.point, TaskStep.map, hplan, hprep])
      · have hstep : cycleSection c .entry = ⟨c, some (.prep plan), false⟩ := by
          simp [cycleSection, hplan, hprep]
        refine .more hstep (.more rfl (.one ?_))
        simp [cycleSection, cycleTaskStep, CyclePc.point, TaskStep.map, hplan, hprep]
  | prep plan => exact .last _ _
  | announce plan => exact .more rfl (.more rfl (.last _ _))
  | tick plan elapsed =>
      by_cases hgo : elapsed < plan.totalMs ∧ c.cycle.cancel = false
      · have hstep : cycleSection c (.tick plan elapsed) =
            ⟨c, some (.progress plan (elapsed + min (plan.totalMs - elapsed) TICK_MS)),
              false⟩ := by
          simp [cycleSection, hgo]
        refine .more hstep (.more rfl (.one ?_))
        simp [cycleSection, cycleTaskStep, CyclePc.point, TaskStep.map, hgo]
      · exact .one (by
          simp only [cycleSection, cycleTaskStep, CyclePc.point, TaskStep.map, if_neg hgo,
            Option.map_some])
  | check plan =>
      refine .one ?_
      cases hcancel : c.cycle.cancel
      · simp [cycleSection, cycleTaskStep, CyclePc.point, TaskStep.map, hcancel]
      · simp [cycleSection, cycleTaskStep, CyclePc.point, TaskStep.map, hcancel]
  | complete plan => exact .last _ _
  | ready => exact .more rfl (.more rfl (.last _ _))
  | review => exact .more rfl (.last _ _)
  | cleanup => exact .last _ _

/-! ## Runs of the coarser system -/

/-- A state of the coarser system, where no switch is in progress. -/
def Concurrent.sectioned (s : Concurrent) : Sectioned :=
  { core := s.core.bare
    brews := s.core.brew.tasks.map BrewPc.point
    cycles := s.core.cycle.tasks.map CyclePc.point
    calls := s.calls
    switches := [] }

/-- A task that is not interrupted, in a system that is made up of the core and its list of
tasks by `embed`. -/
theorem run_solo {Pt : Type} {step : Core → Pt → TaskStep Pt} {a : SectionAction} {i : ℕ}
    (embed : Core → List Pt → Sectioned)
    (hone : ∀ c tasks p, tasks[i]? = some p → sectionStep (embed c tasks) a =
      embed (step c p).core (advance tasks i (step c p).next))
    {c : Core} {tasks : List Pt} {p : Pt} (hp : tasks[i]? = some p) {r : TaskStep Pt}
    (h : Solo step c p r) :
    ∃ n, Runs.run sectionStep (embed c tasks) (List.replicate n a) =
      embed r.core (advance tasks i r.next) := by
  induction h generalizing tasks with
  | last c p => exact ⟨1, hone c tasks p hp⟩
  | @more c c' p p' r hstep hrest ih =>
      have hi : i < tasks.length := (List.getElem?_eq_some_iff.mp hp).1
      have hp' : (tasks.set i p')[i]? = some p' := by simp [hi]
      obtain ⟨n, hrun⟩ := ih hp'
      refine ⟨n + 1, ?_⟩
      have hfirst : sectionStep (embed c tasks) a = embed c' (tasks.set i p') := by
        rw [hone c tasks p hp, hstep]
        rfl
      have hlast : advance (tasks.set i p') i r.next = advance tasks i r.next := by
        cases r.next with
        | none => exact List.eraseIdx_set_eq
        | some x => exact List.set_set ..
      rw [List.replicate_succ, Runs.run_cons, hfirst, hrun, hlast]

/-! ### The lists of tasks -/

theorem bare_eq {c : Core} (hbrew : c.brew.tasks = []) (hcycle : c.cycle.tasks = []) :
    c.bare = c := by
  rw [Core.bare, ← hbrew, ← hcycle]

theorem brewTaskStep_bare (c : Core) (pc : BrewPc) :
    brewTaskStep c.bare pc =
      ⟨(brewTaskStep c pc).core.bare, (brewTaskStep c pc).next, (brewTaskStep c pc).push⟩ := by
  cases pc with
  | stage run i elapsedMs =>
      have hcancel : c.bare.brew.cancel = c.brew.cancel := rfl
      simp only [brewTaskStep, hcancel]
      split <;> rfl
  | tick run i stageElapsed elapsedMs =>
      have hcancel : c.bare.brew.cancel = c.brew.cancel := rfl
      simp only [brewTaskStep, hcancel]
      split
      · rfl
      · split <;> rfl
  | _ => rfl

theorem cycleComplete_bare (plan : CyclePlan) (c : Core) :
    cycleComplete plan c.bare = (cycleComplete plan c).bare := by
  have hdevice : (cycleComplete plan c.bare).device = (cycleComplete plan c).device := by
    have hstats : c.bare.stats = c.stats := rfl
    simp only [cycleComplete, hstats]
    split_ifs <;> rfl
  rw [cycleComplete_eq, hdevice, cycleComplete_eq plan c]
  rfl

theorem cycleTaskStep_bare (c : Core) (pc : CyclePc) :
    cycleTaskStep c.bare pc =
      ⟨(cycleTaskStep c pc).core.bare, (cycleTaskStep c pc).next,
        (cycleTaskStep c pc).push⟩ := by
  cases pc with
  | entry =>
      have hkind : c.bare.cycle.kind = c.cycle.kind := rfl
      obtain ⟨plan, hplan, -⟩ := findPlan_isSome c.cycle.kind
      simp only [cycleTaskStep, hkind, hplan]
      split <;> rfl
  | tick plan elapsed =>
      have hcancel : c.bare.cycle.cancel = c.cycle.cancel := rfl
      simp only [cycleTaskStep, hcancel]
      split <;> rfl
  | complete plan =>
      rw [cycleTaskStep, cycleTaskStep, cycleComplete_bare]
  | _ => rfl

theorem coreStep_bare (c : Core) {o : Op} (ho : o.inPassing = true) :
    coreStep c.bare o = (coreStep c o).bare := by
  cases o with
  | reboot it | brewStart processValue twoCups | cycleStart kind | familyCli key
  | familyUi key | brewTask i | cycleTask i => exact absurd ho Bool.false_ne_true
  | brewCancel =>
      have hflags : c.bare.brew.lockReady = c.brew.lockReady ∧
          c.bare.brew.active = c.brew.active := ⟨rfl, rfl⟩
      simp only [coreStep, nivonaBrewCancel, hflags]
      split <;> rfl
  | cycleCancel =>
      have hflags : c.bare.cycle.lockReady = c.cycle.lockReady ∧
          c.bare.cycle.active = c.cycle.active := ⟨rfl, rfl⟩
      simp only [coreStep, nivonaMaintCycleCancel, hflags]
      split <;> rfl
  | confirm =>
      have hstatus : c.bare.status = c.status := rfl
      have hsoft : nivonaMaintCurrentIsSoft c.bare = nivonaMaintCurrentIsSoft c := rfl
      simp only [coreStep, nivonaMaintHandleConfirm, hstatus, hsoft]
      split
      · rfl
      · split <;> rfl
  | tank name pct => simp only [coreStep, cmdTank]; split <;> rfl
  | fix name =>
      have hdevice : c.bare.device = c.device := rfl
      simp only [coreStep, cmdFix, hdevice]
      split <;> rfl
  | part name state => simp only [coreStep, cmdPart]; split <;> rfl
  | _ => rfl

/-! ### Switches -/

/-- A console switch that is not interrupted. -/
theorem run_switchSection_cli {s : Sectioned} (hs : s.switches = []) (key : String) :
    ∃ n, Runs.run sectionStep s (.op (.familyCli key) :: List.replicate n (.resumeSwitch 0)) =
      { s with core := cmdFamily s.core key } := by
  rcases hfind : nivonaFamilyFind key with _ | f
  · refine ⟨0, ?_⟩
    simp [sectionStep, cmdFamily, hfind]
  · refine ⟨4, ?_⟩
    have hkey := key_of_nivonaFamilyFind hfind
    simp [List.replicate_succ, sectionStep, switchSection, advance, cmdFamily, hfind, hs, hkey,
      nivonaFsmResetToReady, nivonaFamilySet, Core.onDevice, Core.family, nivonaFamilyCurrent]

/-- A switch at the touch screen that is not interrupted. -/
theorem run_switchSection_ui {s : Sectioned} (hs : s.switches = []) (key : String) :
    ∃ n, Runs.run sectionStep s (.op (.familyUi key) :: List.replicate n (.resumeSwitch 0)) =
      { s with core := onFamilySelect s.core key } := by
  rcases hfind : nivonaFamilyFind key with _ | f
  · refine ⟨0, ?_⟩
    simp [sectionStep, onFamilySelect, Core.onDevice, nivonaFamilySet, hfind]
  · refine ⟨2, ?_⟩
    have hkey := key_of_nivonaFamilyFind hfind
    simp [List.replicate_succ, sectionStep, switchSection, advance, onFamilySelect, hfind, hs,
      hkey, nivonaFamilySet, Core.onDevice]

/-! ### Steps -/

theorem map_advance {α β : Type} (f : α → β) (l : List α) (i : ℕ) (next : Option α) :
    (advance l i next).map f = advance (l.map f) i (next.map f) := by
  cases next with
  | none => exact (List.eraseIdx_map f l i).symm
  | some x => exact List.map_set

theorem sectioned_brewTask (s : Concurrent) (i : ℕ) :
    ∃ actions, Runs.run sectionStep s.sectioned actions =
      (concurrentStep s (.op (.brewTask i))).sectioned := by
  rcases hpc : s.core.brew.tasks[i]? with _ | pc
  · refine ⟨[], ?_⟩
    simp [concurrentStep, coreStep, brewTask, hpc]
  · let embed (c : Core) (tasks : List BrewPoint) : Sectioned :=
      { s.sectioned with core := c, brews := tasks }
    have hone (c : Core) (tasks : List BrewPoint) (p : BrewPoint) (hp : tasks[i]? = some p) :
        sectionStep (embed c tasks) (.op (.brewTask i)) =
          embed (brewSection c p).core (advance tasks i (brewSection c p).next) := by
      simp only [sectionStep, embed, hp]
    have hp : (s.core.brew.tasks.map BrewPc.point)[i]? = some pc.point := by simp [hpc]
    obtain ⟨n, hrun⟩ := run_solo embed hone hp (solo_brewTaskStep s.core.bare pc)
    refine ⟨List.replicate n (.op (.brewTask i)), hrun.trans ?_⟩
    rw [brewTaskStep_bare]
    have htasks : advance s.core.brew.tasks i (brewTaskStep s.core pc).next =
        (brewTask s.core i).1.brew.tasks := by
      simp only [brewTask, hpc]
      cases (brewTaskStep s.core pc).next <;> rfl
    have hcore : (brewTask s.core i).1.bare = (brewTaskStep s.core pc).core.bare := by
      obtain ⟨tasks, he⟩ := brewTask_core hpc
      rw [he]
      rfl
    have hcycles : (brewTask s.core i).1.cycle.tasks = s.core.cycle.tasks := by
      rw [brewTask_cycle]
    simp only [concurrentStep, coreStep, Concurrent.sectioned, embed, TaskStep.map, hcore,
      hcycles, ← htasks, map_advance]

theorem sectioned_cycleTask (s : Concurrent) (i : ℕ) :
    ∃ actions, Runs.run sectionStep s.sectioned actions =
      (concurrentStep s (.op (.cycleTask i))).sectioned := by
  rcases hpc : s.core.cycle.tasks[i]? with _ | pc
  · refine ⟨[], ?_⟩
    simp [concurrentStep, coreStep, cycleTask, hpc]
  · let embed (c : Core) (tasks : List CyclePoint) : Sectioned :=
      { s.sectioned with core := c, cycles := tasks }
    have hone (c : Core) (tasks : List CyclePoint) (p : CyclePoint) (hp : tasks[i]? = some p) :
        sectionStep (embed c tasks) (.op (.cycleTask i)) =
          embed (cycleSection c p).core (advance tasks i (cycleSection c p).next) := by
      simp only [sectionStep, embed, hp]
    have hp : (s.core.cycle.tasks.map CyclePc.point)[i]? = some pc.point := by simp [hpc]
    obtain ⟨n, hrun⟩ := run_solo embed hone hp (solo_cycleTaskStep s.core.bare pc)
    refine ⟨List.replicate n (.op (.cycleTask i)), hrun.trans ?_⟩
    rw [cycleTaskStep_bare]
    have htasks : advance s.core.cycle.tasks i (cycleTaskStep s.core pc).next =
        (cycleTask s.core i).1.cycle.tasks := by
      simp only [cycleTask, hpc]
      cases (cycleTaskStep s.core pc).next <;> rfl
    have hcore : (cycleTask s.core i).1.bare = (cycleTaskStep s.core pc).core.bare := by
      obtain ⟨tasks, he⟩ := cycleTask_core hpc
      rw [he]
      rfl
    have hbrews : (cycleTask s.core i).1.brew.tasks = s.core.brew.tasks := by
      rw [cycleTask_brew]
    simp only [concurrentStep, coreStep, Concurrent.sectioned, embed, TaskStep.map, hcore,
      hbrews, ← htasks, map_advance]

theorem sectioned_inPassing (s : Concurrent) {o : Op} (ho : o.inPassing = true) :
    { s.sectioned with core := coreStep s.sectioned.core o } =
      ({ s with core := coreStep s.core o } : Concurrent).sectioned := by
  obtain ⟨-, -, -, hbrews, hcycles⟩ := kept_coreStep s.core ho
  simp only [Concurrent.sectioned, hbrews, hcycles, coreStep_bare s.core ho]

/-- The check-and-set section of a brew, whatever tasks there are. -/
theorem brewCommit_bare (c : Core) (sel : UInt8) (recipe : Recipe) (twoCups : Bool) :
    let r := brewCommit c sel recipe twoCups
    (brewCommit c.bare sel recipe twoCups).1.bare = r.1.bare ∧
      (brewCommit c.bare sel recipe twoCups).2 = r.2 ∧
      r.1.brew.tasks = (if r.2 then c.brew.tasks ++ [.entry] else c.brew.tasks) ∧
      r.1.cycle.tasks = c.cycle.tasks := by
  intro r
  by_cases hidle : c.brew.active = true
  · have hr : r = (c, false) := by simp [r, brewCommit, hidle]
    have hbare : brewCommit c.bare sel recipe twoCups = (c.bare, false) := by
      simp [brewCommit, Core.bare, hidle]
    rw [hr, hbare]
    exact ⟨rfl, rfl, rfl, rfl⟩
  · rcases hcreated : c.taskResults 0
    · simp [r, brewCommit, Core.xTaskCreate, Core.bare, hidle, hcreated]
    · simp [r, brewCommit, Core.xTaskCreate, Core.bare, hidle, hcreated]

theorem cycleCommit_bare (c : Core) (kind : CycleKind) :
    let r := cycleCommit c kind
    (cycleCommit c.bare kind).1.bare = r.1.bare ∧ (cycleCommit c.bare kind).2 = r.2 ∧
      r.1.cycle.tasks = (if r.2 then c.cycle.tasks ++ [.entry] else c.cycle.tasks) ∧
      r.1.brew.tasks = c.brew.tasks := by
  intro r
  by_cases hidle : c.cycle.active = true
  · have hr : r = (c, false) := by simp [r, cycleCommit, hidle]
    have hbare : cycleCommit c.bare kind = (c.bare, false) := by
      simp [cycleCommit, Core.bare, hidle]
    rw [hr, hbare]
    exact ⟨rfl, rfl, rfl, rfl⟩
  · rcases hcreated : c.taskResults 0
    · simp [r, cycleCommit, Core.xTaskCreate, Core.bare, hidle, hcreated]
    · simp [r, cycleCommit, Core.xTaskCreate, Core.bare, hidle, hcreated]

theorem startCallStep_bare (c : Core) (call : StartCall) :
    (startCallStep c.bare call).2 = (startCallStep c call).2 := by
  cases call with
  | brewEntry processValue twoCups =>
      have hlock : c.bare.brew.lockReady = c.brew.lockReady := rfl
      have hresolve : brewResolve c.bare processValue = brewResolve c processValue := rfl
      simp only [startCallStep, hlock, hresolve]
      split
      · rfl
      · split <;> rfl
  | brewPeek sel recipe twoCups =>
      have hpeek : nivonaMaintCycleActive c.bare = nivonaMaintCycleActive c := rfl
      simp only [startCallStep, hpeek]
      split <;> rfl
  | brewPrompt sel recipe twoCups =>
      have hstatus : c.bare.status = c.status := rfl
      simp only [startCallStep, hstatus]
      split <;> rfl
  | brewSoft sel recipe twoCups =>
      have hsoft : nivonaMaintCurrentIsSoft c.bare = nivonaMaintCurrentIsSoft c := rfl
      simp only [startCallStep, hsoft]
      split <;> rfl
  | brewSection sel recipe twoCups => rfl
  | cyclePeek kind =>
      have hlock : c.bare.cycle.lockReady = c.cycle.lockReady := rfl
      have hpeek : nivonaBrewActive c.bare = nivonaBrewActive c := rfl
      simp only [startCallStep, hlock, hpeek]
      split
      · rfl
      · split
        · rfl
        · split <;> rfl
  | cycleSection kind => rfl

/-- A call moves on or returns. -/
theorem concurrentStep_resume {s : Concurrent} {i : ℕ} {call : StartCall}
    (hcall : s.calls[i]? = some call) :
    concurrentStep s (.resume i) =
      { core := (startCallStep s.core call).1
        calls := advance s.calls i (startCallStep s.core call).2 } := by
  simp only [concurrentStep, hcall]
  rcases startCallStep s.core call with ⟨core, _ | call'⟩ <;> rfl

theorem sectioned_resume (s : Concurrent) (i : ℕ) :
    sectionStep s.sectioned (.resume i) = (concurrentStep s (.resume i)).sectioned := by
  rcases hcall : s.calls[i]? with _ | call
  · have hcall' : s.sectioned.calls[i]? = none := hcall
    simp only [sectionStep, concurrentStep, hcall, hcall']
  have hcall' : s.sectioned.calls[i]? = some call := hcall
  have hnext : (startCallStep s.sectioned.core call).2 = (startCallStep s.core call).2 :=
    startCallStep_bare s.core call
  rw [concurrentStep_resume hcall]
  simp only [sectionStep, hcall', hnext]
  have hquiet (hbrew : ∀ sel recipe twoCups, call ≠ .brewSection sel recipe twoCups)
      (hcycle : ∀ kind, call ≠ .cycleSection kind) (hsame : callSection s.sectioned call =
        s.sectioned) (calls : List StartCall) :
      { callSection s.sectioned call with calls := calls } =
        ({ core := (startCallStep s.core call).1, calls := calls } : Concurrent).sectioned := by
    rw [startCallStep_core hbrew hcycle, hsame]
    rfl
  cases call with
  | brewSection sel recipe twoCups =>
      obtain ⟨hcore, hcreated, hbrews, hcycles⟩ := brewCommit_bare s.core sel recipe twoCups
      simp only [callSection, startCallStep, Concurrent.sectioned, hcore, hcreated, hbrews,
        hcycles]
      split <;> simp [BrewPc.point]
  | cycleSection kind =>
      obtain ⟨hcore, hcreated, hcycles, hbrews⟩ := cycleCommit_bare s.core kind
      simp only [callSection, startCallStep, Concurrent.sectioned, hcore, hcreated, hbrews,
        hcycles]
      split <;> simp [CyclePc.point]
  | _ => exact hquiet (by simp) (by simp) rfl _

theorem sectioned_boot (it : NvsIterator) (nvs : Nvs) (taskResults : ℕ → Bool) :
    (Concurrent.boot it nvs taskResults).sectioned = .boot it nvs taskResults := by
  have hbrews : (appMain it nvs taskResults).brew.tasks = [] :=
    congrArg BrewModule.tasks (appMain_brew it nvs taskResults)
  have hcycles : (appMain it nvs taskResults).cycle.tasks = [] :=
    congrArg CycleModule.tasks (appMain_cycle it nvs taskResults)
  simp only [Concurrent.sectioned, Concurrent.boot, Sectioned.boot, Sectioned.idle, hbrews,
    hcycles, bare_eq hbrews hcycles, List.map_nil]

/-- A step of the coarser system is a run of the sections. -/
theorem sectioned_step (s : Concurrent) (a : Action) :
    ∃ actions, Runs.run sectionStep s.sectioned actions = (concurrentStep s a).sectioned := by
  have hpassing {o : Op} (ho : o.inPassing = true)
      (hfine : sectionStep s.sectioned (.op o) =
        { s.sectioned with core := coreStep s.sectioned.core o })
      (hcoarse : concurrentStep s (.op o) = { s with core := coreStep s.core o }) :
      ∃ actions, Runs.run sectionStep s.sectioned actions =
        (concurrentStep s (.op o)).sectioned := by
    refine ⟨[.op o], ?_⟩
    rw [Runs.run_cons, Runs.run_nil, hfine, hcoarse, sectioned_inPassing s ho]
  cases a with
  | resume i => exact ⟨[.resume i], sectioned_resume s i⟩
  | op o =>
      cases o with
      | reboot it =>
          exact ⟨[.op (.reboot it)],
            (sectioned_boot it s.core.device.nvs s.core.taskResults).symm⟩
      | brewStart processValue twoCups => exact ⟨[.op (.brewStart processValue twoCups)], rfl⟩
      | cycleStart kind => exact ⟨[.op (.cycleStart kind)], rfl⟩
      | familyCli key =>
          obtain ⟨n, hrun⟩ := run_switchSection_cli (s := s.sectioned) rfl key
          refine ⟨_, hrun.trans ?_⟩
          simp only [concurrentStep, coreStep, cmdFamily]
          split <;> rfl
      | familyUi key =>
          obtain ⟨n, hrun⟩ := run_switchSection_ui (s := s.sectioned) rfl key
          exact ⟨_, hrun⟩
      | brewTask i => exact sectioned_brewTask s i
      | cycleTask i => exact sectioned_cycleTask s i
      | _ => exact hpassing rfl rfl rfl

/-- Every run of the coarser system is a run of the sections. -/
theorem sectioned_run (s : Concurrent) (actions : List Action) :
    ∃ fine, Runs.run sectionStep s.sectioned fine =
      (Runs.run concurrentStep s actions).sectioned := by
  induction actions generalizing s with
  | nil => exact ⟨[], rfl⟩
  | cons a rest ih =>
      obtain ⟨first, hfirst⟩ := sectioned_step s a
      obtain ⟨fine, hrest⟩ := ih (concurrentStep s a)
      refine ⟨first ++ fine, ?_⟩
      rw [Runs.run_append, hfirst, hrest]
      rfl

end Nivona
