import NivonaEmulator.Counters
import NivonaEmulator.Exclusion

/-!
# What changes the registers

Only the completion of a brew or a cycle, a client's write, a client's erase
and a restart touch the numerical registers, whatever else is interleaved with
them.  The selectors and plans that completions work with come from their
tables.
-/

namespace Nivona

/-! ## What a step is for the registers -/

inductive RegisterEvent
  | none
  | brewDone (arg : BrewArg)
  | cycleDone (plan : CyclePlan)
  | set (id : Int16) (v : Int32)
  | erase (id : Int16)
  | restart (it : NvsIterator)

/-- A completion takes effect as a whole. -/
def registerEvent (c : Core) : Action → RegisterEvent
  | .op (.brewTask i) =>
      match c.brew.tasks[i]? with
      | some (.wear run) => .brewDone run.arg
      | _ => .none
  | .op (.cycleTask i) =>
      match c.cycle.tasks[i]? with
      | some (.complete plan) => .cycleDone plan
      | _ => .none
  | .op (.setNum id v) => .set id v
  | .op (.eraseNum id) => .erase id
  | .op (.reboot it) => .restart it
  | _ => .none

/-- The actions behind the events. -/
theorem registerEvent_cases (c : Core) (a : Action) :
    registerEvent c a = .none ∨
    (∃ i run, a = .op (.brewTask i) ∧ c.brew.tasks[i]? = some (.wear run) ∧
      registerEvent c a = .brewDone run.arg) ∨
    (∃ i plan, a = .op (.cycleTask i) ∧ c.cycle.tasks[i]? = some (.complete plan) ∧
      registerEvent c a = .cycleDone plan) ∨
    (∃ id v, a = .op (.setNum id v) ∧ registerEvent c a = .set id v) ∨
    (∃ id, a = .op (.eraseNum id) ∧ registerEvent c a = .erase id) ∨
    ∃ it, a = .op (.reboot it) ∧ registerEvent c a = .restart it := by
  cases a with
  | resume i => exact .inl rfl
  | op o =>
      cases o with
      | brewTask i =>
          rcases hpc : c.brew.tasks[i]? with _ | pc
          · exact .inl (by simp [registerEvent, hpc])
          · cases pc with
            | wear run => exact .inr (.inl ⟨i, run, rfl, hpc, by simp [registerEvent, hpc]⟩)
            | _ => exact .inl (by simp [registerEvent, hpc])
      | cycleTask i =>
          rcases hpc : c.cycle.tasks[i]? with _ | pc
          · exact .inl (by simp [registerEvent, hpc])
          · cases pc with
            | complete plan =>
                exact .inr (.inr (.inl ⟨i, plan, rfl, hpc, by simp [registerEvent, hpc]⟩))
            | _ => exact .inl (by simp [registerEvent, hpc])
      | setNum id v => exact .inr (.inr (.inr (.inl ⟨id, v, rfl, rfl⟩)))
      | eraseNum id => exact .inr (.inr (.inr (.inr (.inl ⟨id, rfl, rfl⟩))))
      | reboot it => exact .inr (.inr (.inr (.inr (.inr ⟨it, rfl, rfl⟩))))
      | _ => exact .inl rfl

/-- The core with the effect of an event on the registers. -/
def RegisterEvent.apply (c : Core) : RegisterEvent → Core
  | .none => c
  | .brewDone arg => applyWearAfterBrew arg c
  | .cycleDone plan => cycleComplete plan c
  | .set id v => c.onStorage fun s => nivonaStoreSetNum s id v
  | .erase id => c.onStorage fun s => nivonaStoreEraseNum s id
  | .restart it => reboot it c

/-- The two cores agree on the registers and on the session's own tick. -/
def SameRegisters (c c' : Core) : Prop :=
  c'.device.num = c.device.num ∧ c'.localWearTick = c.localWearTick

theorem SameRegisters.refl (c : Core) : SameRegisters c c := ⟨rfl, rfl⟩

theorem num_nivonaFamilySet (d : Device) (key : String) : (nivonaFamilySet d key).num = d.num := by
  rw [nivonaFamilySet]
  split <;> rfl

/-- Before its counters a brew leaves the registers alone, and so after. -/
theorem sameRegisters_brewTaskStep (c : Core) {pc : BrewPc} (hpc : ∀ run, pc ≠ .wear run) :
    SameRegisters c (brewTaskStep c pc).core := by
  cases pc with
  | wear run => exact absurd rfl (hpc run)
  | stage run i elapsedMs =>
      simp only [brewTaskStep]
      split
      · exact ⟨(consumeStage_frame c.device _).2, rfl⟩
      · exact .refl c
  | tick run i stageElapsed elapsedMs =>
      simp only [brewTaskStep]
      split
      · exact .refl c
      · split <;> exact .refl c
  | _ => exact .refl c

theorem sameRegisters_cycleTaskStep (c : Core) {pc : CyclePc} (hpc : ∀ plan, pc ≠ .complete plan) :
    SameRegisters c (cycleTaskStep c pc).core := by
  cases pc with
  | complete plan => exact absurd rfl (hpc plan)
  | entry =>
      obtain ⟨plan, hplan, -⟩ := findPlan_isSome c.cycle.kind
      simp only [cycleTaskStep, hplan]
      split <;> exact .refl c
  | tick plan elapsed => simp only [cycleTaskStep]; split <;> exact .refl c
  | _ => exact .refl c

theorem sameRegisters_brewTask (c : Core) (i : ℕ) :
    SameRegisters ((registerEvent c (.op (.brewTask i))).apply c) (brewTask c i).1 := by
  rw [registerEvent]
  rcases hpc : c.brew.tasks[i]? with _ | pc
  · have hstay : (brewTask c i).1 = c := by simp [brewTask, hpc]
    rw [hstay]
    exact .refl c
  · obtain ⟨tasks, hcore⟩ := brewTask_core hpc
    rw [hcore]
    cases pc with
    | wear run => exact .refl _
    | _ => exact sameRegisters_brewTaskStep c (by simp)

theorem sameRegisters_cycleTask (c : Core) (i : ℕ) :
    SameRegisters ((registerEvent c (.op (.cycleTask i))).apply c) (cycleTask c i).1 := by
  rw [registerEvent]
  rcases hpc : c.cycle.tasks[i]? with _ | pc
  · have hstay : (cycleTask c i).1 = c := by simp [cycleTask, hpc]
    rw [hstay]
    exact .refl c
  · obtain ⟨tasks, hcore⟩ := cycleTask_core hpc
    rw [hcore]
    cases pc with
    | complete plan => exact .refl _
    | _ => exact sameRegisters_cycleTaskStep c (by simp)

/-- Every operation that starts nothing acts on the registers as its event. -/
theorem sameRegisters_coreStep (c : Core) {o : Op} (hstart : o.starts = false) :
    SameRegisters ((registerEvent c (.op o)).apply c) (coreStep c o) := by
  cases o with
  | brewStart pv twoCups => exact absurd hstart (by simp [Op.starts])
  | cycleStart kind => exact absurd hstart (by simp [Op.starts])
  | brewTask i => exact sameRegisters_brewTask c i
  | cycleTask i => exact sameRegisters_cycleTask c i
  | brewCancel =>
      obtain ⟨cancel, he⟩ := nivonaBrewCancel_frame c
      rw [coreStep, he]
      exact .refl c
  | cycleCancel =>
      obtain ⟨cancel, he⟩ := nivonaMaintCycleCancel_frame c
      rw [coreStep, he]
      exact .refl c
  | confirm =>
      simp only [coreStep, nivonaMaintHandleConfirm]
      split
      · exact .refl c
      · split <;> exact .refl c
  | tank name pct => simp only [coreStep, cmdTank]; split <;> exact .refl c
  | part name state => simp only [coreStep, cmdPart]; split <;> exact .refl c
  | fix name =>
      simp only [coreStep, cmdFix]
      split
      · exact .refl c
      · rename_i d hfix
        exact ⟨(fixTarget_frame hfix).1, rfl⟩
  | familyCli key =>
      simp only [coreStep, cmdFamily]
      split
      · exact .refl c
      · exact ⟨num_nivonaFamilySet c.device key, rfl⟩
  | familyUi key => exact ⟨num_nivonaFamilySet c.device key, rfl⟩
  | _ => exact .refl _

/-- Every step of the system acts on the registers as its event. -/
theorem sameRegisters_step (s : Concurrent) (a : Action) :
    SameRegisters ((registerEvent s.core a).apply s.core) (concurrentStep s a).core := by
  rcases concurrentStep_core_cases s a with
    ⟨he, hstart⟩ | ⟨o, rfl, hstart, he⟩ | ⟨i, sel, recipe, twoCups, rfl, -, he⟩ |
      ⟨i, kind, rfl, -, he⟩
  · have hnone : registerEvent s.core a = .none := by
      rw [registerEvent.eq_def]
      split
      · exact absurd (hstart _ rfl) Bool.false_ne_true
      · exact absurd (hstart _ rfl) Bool.false_ne_true
      · exact absurd (hstart _ rfl) Bool.false_ne_true
      · exact absurd (hstart _ rfl) Bool.false_ne_true
      · exact absurd (hstart _ rfl) Bool.false_ne_true
      · rfl
    rw [he, hnone]
    exact .refl s.core
  · rw [he]
    exact sameRegisters_coreStep s.core hstart
  · obtain ⟨brew, taskResults, -, hcommit⟩ := brewCommit_frame s.core sel recipe twoCups
    rw [he, hcommit]
    exact .refl s.core
  · obtain ⟨cycle, taskResults, -, hcommit⟩ := cycleCommit_frame s.core kind
    rw [he, hcommit]
    exact .refl s.core

/-! ## The data of the tasks -/

/-- Selector a start call carries. -/
def StartCall.selector? : StartCall → Option UInt8
  | .brewPeek sel _ _ | .brewPrompt sel _ _ | .brewSoft sel _ _ | .brewSection sel _ _ => some sel
  | _ => none

/-- Argument a brew task has taken. -/
def BrewPc.arg? : BrewPc → Option BrewArg
  | .stage run _ _ | .tick run _ _ _ | .ready run | .check run | .wear run => some run.arg
  | _ => none

/-- Plan a cycle task has found. -/
def CyclePc.plan? : CyclePc → Option CyclePlan
  | .prep plan | .announce plan | .tick plan _ | .check plan | .complete plan => some plan
  | _ => none

/-- Selectors are selectors of recipes, plans are plans of the table. -/
structure TaskData (c : Core) : Prop where
  stored : c.brew.arg.selector ≤ 10
  brews : ∀ pc ∈ c.brew.tasks, ∀ arg ∈ pc.arg?, arg.selector ≤ 10
  cycles : ∀ pc ∈ c.cycle.tasks, ∀ plan ∈ pc.plan?, plan ∈ PLANS

/-- So are the selectors of the calls in progress. -/
def CallData (calls : List StartCall) : Prop :=
  ∀ call ∈ calls, ∀ sel ∈ call.selector?, sel ≤ 10

theorem taskData_appMain (it : NvsIterator) (nvs : Nvs) (taskResults : ℕ → Bool) :
    TaskData (appMain it nvs taskResults) := by
  have hbrew := appMain_brew it nvs taskResults
  have hcycle := appMain_cycle it nvs taskResults
  constructor <;> simp [hbrew, hcycle, Core.powerOn]

/-- A brew task keeps the argument it has, or takes the stored one. -/
theorem BrewPc.Next.arg? {c : Core} {pc pc' : BrewPc} (h : pc.Next c pc') :
    ∀ arg ∈ pc'.arg?, arg ∈ pc.arg? ∨ arg = c.brew.arg := by
  cases h with
  | start =>
      intro arg harg
      exact .inr (Option.some.inj harg).symm
  | cancelled run hcancel => exact fun arg harg => absurd harg (by simp [BrewPc.arg?])
  | wear run => exact fun arg harg => absurd harg (by simp [BrewPc.arg?])
  | review => exact fun arg harg => absurd harg (by simp [BrewPc.arg?])
  | _ => exact fun arg harg => .inl harg

theorem mem_PLANS_of_findPlan {k : CycleKind} {plan : CyclePlan} (h : findPlan k = some plan) :
    plan ∈ PLANS :=
  List.mem_of_find?_eq_some h

/-- A cycle task keeps the plan it has, or finds one in the table. -/
theorem CyclePc.Next.plan? {c : Core} {pc pc' : CyclePc} (h : pc.Next c pc') :
    ∀ plan ∈ pc'.plan?, plan ∈ pc.plan? ∨ plan ∈ PLANS := by
  have hfound {plan : CyclePlan} (hplan : findPlan c.cycle.kind = some plan) :
      ∀ plan' ∈ some plan, plan' ∈ CyclePc.plan? .entry ∨ plan' ∈ PLANS := by
    intro plan' hplan'
    obtain rfl := Option.some.inj hplan'
    exact .inr (mem_PLANS_of_findPlan hplan)
  cases h with
  | raise hplan => exact hfound hplan
  | noPrep hplan => exact hfound hplan
  | cancelled plan hcancel => exact fun plan hplan => absurd hplan (by simp [CyclePc.plan?])
  | complete plan => exact fun plan hplan => absurd hplan (by simp [CyclePc.plan?])
  | ready => exact fun plan hplan => absurd hplan (by simp [CyclePc.plan?])
  | review => exact fun plan hplan => absurd hplan (by simp [CyclePc.plan?])
  | _ => exact fun plan hplan => .inl hplan

theorem mem_tasks_brewTask {c : Core} {i : ℕ} {pc' : BrewPc}
    (h : pc' ∈ (brewTask c i).1.brew.tasks) :
    pc' ∈ c.brew.tasks ∨ ∃ pc ∈ c.brew.tasks, (brewTaskStep c pc).next = some pc' := by
  rw [brewTask] at h
  rcases hpc : c.brew.tasks[i]? with _ | pc
  · rw [hpc] at h
    exact .inl h
  · rw [hpc] at h
    rcases hnext : (brewTaskStep c pc).next with _ | next
    · simp only [hnext] at h
      exact .inl (List.mem_of_mem_eraseIdx h)
    · simp only [hnext] at h
      rcases List.mem_or_eq_of_mem_set h with hold | rfl
      · exact .inl hold
      · exact .inr ⟨pc, List.mem_of_getElem? hpc, hnext⟩

theorem mem_tasks_cycleTask {c : Core} {i : ℕ} {pc' : CyclePc}
    (h : pc' ∈ (cycleTask c i).1.cycle.tasks) :
    pc' ∈ c.cycle.tasks ∨ ∃ pc ∈ c.cycle.tasks, (cycleTaskStep c pc).next = some pc' := by
  rw [cycleTask] at h
  rcases hpc : c.cycle.tasks[i]? with _ | pc
  · rw [hpc] at h
    exact .inl h
  · rw [hpc] at h
    rcases hnext : (cycleTaskStep c pc).next with _ | next
    · simp only [hnext] at h
      exact .inl (List.mem_of_mem_eraseIdx h)
    · simp only [hnext] at h
      rcases List.mem_or_eq_of_mem_set h with hold | rfl
      · exact .inl hold
      · exact .inr ⟨pc, List.mem_of_getElem? hpc, hnext⟩

theorem arg_brewTask (c : Core) (i : ℕ) : (brewTask c i).1.brew.arg = c.brew.arg := by
  rcases hpc : c.brew.tasks[i]? with _ | pc
  · simp [brewTask, hpc]
  · obtain ⟨tasks, hcore⟩ := brewTask_core hpc
    rw [hcore]
    dsimp only
    rw [brewTaskStep_brew]
    split <;> rfl

/-- A resolved selector is that of a recipe. -/
theorem selector_le_of_brewResolve {c : Core} {processValue : Int16} {sel : UInt8}
    {recipe : Recipe} (h : brewResolve c processValue = some (sel, recipe)) : sel ≤ 10 := by
  obtain ⟨r, hr, he⟩ := Option.map_eq_some_iff.mp h
  obtain ⟨rfl, rfl⟩ := Prod.mk.inj he
  have hmem := selector_le_of_mem_recipes c.device.family r (List.mem_of_find?_eq_some hr)
  have hsel : r.selector = processValue.toUInt16.toUInt8 := by simpa using List.find?_some hr
  rwa [← hsel]

/-- A start call keeps its selector, or has just resolved it. -/
theorem StartCall.Next.selector? {c : Core} {call call' : StartCall} (h : call.Next c call') :
    ∀ sel ∈ call'.selector?, sel ∈ call.selector? ∨ sel ≤ 10 := by
  cases h with
  | resolved twoCups hres =>
      intro sel hsel
      obtain rfl := Option.some.inj hsel
      exact .inr (selector_le_of_brewResolve hres)
  | noBrew kind hidle => exact fun sel hsel => absurd hsel (by simp [StartCall.selector?])
  | _ => exact fun sel hsel => .inl hsel

theorem callData_step {s : Concurrent} (h : CallData s.calls) (a : Action) :
    CallData (concurrentStep s a).calls := by
  have hfresh {call : StartCall} (hcall : call.selector? = none) :
      CallData (s.calls ++ [call]) := by
    intro call' hmem sel hsel
    rcases List.mem_append.mp hmem with hold | hnew
    · exact h call' hold sel hsel
    · obtain rfl := List.mem_singleton.mp hnew
      rw [hcall] at hsel
      exact absurd hsel (by simp)
  cases a with
  | op o =>
      cases o with
      | brewStart processValue twoCups => exact hfresh rfl
      | cycleStart kind => exact hfresh rfl
      | reboot it =>
          intro call hmem
          exact absurd hmem List.not_mem_nil
      | _ => exact h
  | resume i =>
      rcases hcall : s.calls[i]? with _ | call
      · simpa [concurrentStep, hcall] using h
      · have hmem := List.mem_of_getElem? hcall
        simp only [concurrentStep, hcall]
        rcases hstep : startCallStep s.core call with ⟨core, - | call'⟩
        · exact fun call' hcall' => h call' (List.mem_of_mem_eraseIdx hcall')
        · intro x hx sel hsel
          rcases List.mem_or_eq_of_mem_set hx with hold | rfl
          · exact h x hold sel hsel
          · have hmove : call.Next s.core x := StartCall.next_of_step (by rw [hstep])
            rcases hmove.selector? sel hsel with hsame | hnew
            · exact h call hmem sel hsame
            · exact hnew

theorem TaskData.of_modules {c c' : Core} (h : TaskData c) (hbrew : c'.brew.arg = c.brew.arg)
    (htasks : c'.brew.tasks = c.brew.tasks) (hcycle : c'.cycle.tasks = c.cycle.tasks) :
    TaskData c' where
  stored := by
    rw [hbrew]
    exact h.stored
  brews := by
    rw [htasks]
    exact h.brews
  cycles := by
    rw [hcycle]
    exact h.cycles

theorem taskData_brewTask {c : Core} (h : TaskData c) (i : ℕ) : TaskData (brewTask c i).1 where
  stored := by
    rw [arg_brewTask]
    exact h.stored
  brews := by
    intro pc' hpc' arg harg
    rcases mem_tasks_brewTask hpc' with hold | ⟨pc, hpc, hnext⟩
    · exact h.brews pc' hold arg harg
    · rcases (BrewPc.next_of_step hnext).arg? arg harg with hsame | rfl
      · exact h.brews pc hpc arg hsame
      · exact h.stored
  cycles := by
    rw [brewTask_cycle]
    exact h.cycles

theorem taskData_cycleTask {c : Core} (h : TaskData c) (i : ℕ) : TaskData (cycleTask c i).1 where
  stored := by
    rw [cycleTask_brew]
    exact h.stored
  brews := by
    rw [cycleTask_brew]
    exact h.brews
  cycles := by
    intro pc' hpc' plan hplan
    rcases mem_tasks_cycleTask hpc' with hold | ⟨pc, hpc, hnext⟩
    · exact h.cycles pc' hold plan hplan
    · rcases (CyclePc.next_of_step hnext).plan? plan hplan with hsame | hnew
      · exact h.cycles pc hpc plan hsame
      · exact hnew

theorem taskData_brewCommit {c : Core} (h : TaskData c) {sel : UInt8} (hsel : sel ≤ 10)
    (recipe : Recipe) (twoCups : Bool) : TaskData (brewCommit c sel recipe twoCups).1 := by
  by_cases hactive : c.brew.active = true
  · simpa [brewCommit, hactive] using h
  · have hentry : ∀ pc ∈ c.brew.tasks ++ [.entry], ∀ arg ∈ pc.arg?, arg.selector ≤ 10 := by
      intro pc hpc arg harg
      rcases List.mem_append.mp hpc with hold | hnew
      · exact h.brews pc hold arg harg
      · obtain rfl := List.mem_singleton.mp hnew
        exact absurd harg (by simp [BrewPc.arg?])
    cases htask : c.taskResults 0 with
    | false =>
        simp only [brewCommit, Core.xTaskCreate, hactive, htask]
        exact ⟨hsel, h.brews, h.cycles⟩
    | true =>
        simp only [brewCommit, Core.xTaskCreate, hactive, htask]
        exact ⟨hsel, hentry, h.cycles⟩

theorem taskData_cycleCommit {c : Core} (h : TaskData c) (kind : CycleKind) :
    TaskData (cycleCommit c kind).1 := by
  rcases cycleCommit_cases c kind with
    ⟨-, he⟩ | ⟨-, -, cycle, he, -, -, htasks⟩ | ⟨-, -, cycle, he, -, -, htasks⟩
  · rwa [he]
  · rw [he]
    exact h.of_modules rfl rfl htasks
  · rw [he]
    refine ⟨h.stored, h.brews, ?_⟩
    intro pc hpc plan hplan
    rw [htasks] at hpc
    rcases List.mem_append.mp hpc with hold | hnew
    · exact h.cycles pc hold plan hplan
    · obtain rfl := List.mem_singleton.mp hnew
      exact absurd hplan (by simp [CyclePc.plan?])

theorem taskData_coreStep {c : Core} (h : TaskData c) {o : Op} (hstart : o.starts = false) :
    TaskData (coreStep c o) := by
  have hquiet (ho : o.quiet = true) : TaskData (coreStep c o) := by
    obtain ⟨hb, hc⟩ := coreStep_quiet c ho
    exact h.of_modules (by rw [hb]) (by rw [hb]) (by rw [hc])
  cases o with
  | brewStart pv twoCups => exact absurd hstart (by simp [Op.starts])
  | cycleStart kind => exact absurd hstart (by simp [Op.starts])
  | reboot it => exact taskData_appMain it c.device.nvs c.taskResults
  | brewTask i => exact taskData_brewTask h i
  | cycleTask i => exact taskData_cycleTask h i
  | brewCancel =>
      obtain ⟨cancel, he⟩ := nivonaBrewCancel_frame c
      rw [coreStep, he]
      exact h.of_modules rfl rfl rfl
  | cycleCancel =>
      obtain ⟨cancel, he⟩ := nivonaMaintCycleCancel_frame c
      rw [coreStep, he]
      exact h.of_modules rfl rfl rfl
  | _ => exact hquiet rfl

theorem taskData_step (s : Concurrent) (a : Action) (h : TaskData s.core ∧ CallData s.calls) :
    TaskData (concurrentStep s a).core ∧ CallData (concurrentStep s a).calls := by
  obtain ⟨htask, hcall⟩ := h
  refine ⟨?_, callData_step hcall a⟩
  rcases concurrentStep_core_cases s a with
    ⟨he, -⟩ | ⟨o, -, hstart, he⟩ | ⟨i, sel, recipe, twoCups, -, hmem, he⟩ | ⟨i, kind, -, -, he⟩
  · rwa [he]
  · rw [he]
    exact taskData_coreStep htask hstart
  · rw [he]
    exact taskData_brewCommit htask (hcall _ (List.mem_of_getElem? hmem) sel rfl) recipe twoCups
  · rw [he]
    exact taskData_cycleCommit htask kind

/-- Selectors and plans are in their tables in every state of every run. -/
theorem taskData_run (it : NvsIterator) (nvs : Nvs) (taskResults : ℕ → Bool)
    (actions : List Action) :
    TaskData (Runs.run concurrentStep (Concurrent.boot it nvs taskResults) actions).core ∧
      CallData (Runs.run concurrentStep (Concurrent.boot it nvs taskResults) actions).calls := by
  refine Runs.invariant (P := fun s : Concurrent => TaskData s.core ∧ CallData s.calls)
    taskData_step ⟨taskData_appMain it nvs taskResults, ?_⟩ actions
  intro call hmem
  exact absurd hmem List.not_mem_nil

end Nivona
