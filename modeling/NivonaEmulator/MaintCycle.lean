import NivonaEmulator.Brew

/-!
# Maintenance cycles

The mirror of the brew module: a plan for each kind, the start call split at
its mutex sections, and `cycle_task` one program point at a time.
-/

namespace Nivona

def PLANS : List CyclePlan :=
  [⟨.descale, 180000, MANIP_FILL_WATER, .descale, 600, 601, "descale"⟩,
   ⟨.easyClean, 45000, MANIP_FLUSH_REQUIRED, .rinse, 0, 0, "easy_clean"⟩,
   ⟨.intensiveClean, 90000, MANIP_FILL_POWDER, .cleanCoffee, 610, 611, "intensive_clean"⟩,
   ⟨.filterInsert, 30000, MANIP_FLUSH_REQUIRED, .filterChange, 640, 641, "filter_insert"⟩,
   ⟨.filterReplace, 30000, MANIP_FLUSH_REQUIRED, .filterChange, 640, 641, "filter_replace"⟩,
   ⟨.filterRemove, 20000, 0, .none, 640, 641, "filter_remove"⟩,
   ⟨.evaporating, 60000, 0, .rinse, 0, 0, "evaporating"⟩,
   ⟨.genericClean, 20000, 0, .rinse, 0, 0, "rinse"⟩]

def findPlan (k : CycleKind) : Option CyclePlan :=
  PLANS.find? fun p => p.kind == k

/-- Cycle of a name or an alias. -/
def nivonaMaintCycleFromName (name : String) : Option CycleKind :=
  match PLANS.find? fun p => p.label == name with
  | some p => some p.kind
  | none =>
      if name = "clean" then some .easyClean
      else if name = "rinse" then some .genericClean
      else none

def resolveStatCounter (stats : Stats) : StatCounter → Int16
  | .cleanCoffee => stats.cleanCoffeeId
  | .rinse => stats.rinseId
  | .filterChange => stats.filterChangeId
  | .descale => stats.descaleId
  | .none => 0

/-- Counter, gauge and filter updates of a completed cycle. -/
def cycleComplete (plan : CyclePlan) (c : Core) : Core :=
  let counterId := resolveStatCounter c.stats plan.statCounter
  let c :=
    if counterId ≠ 0 then
      c.onStorage fun s => nivonaStoreSetNum s counterId (nivonaStoreGetNum s counterId + 1)
    else c
  let c := if plan.statPct ≠ 0 then
      c.onStorage fun s => nivonaStoreSetNum s plan.statPct 100 else c
  let c := if plan.statWarn ≠ 0 then
      c.onStorage fun s => nivonaStoreSetNum s plan.statWarn 0 else c
  let c := if plan.kind = .filterInsert ∨ plan.kind = .filterReplace then
      c.onDevice fun d => nivonaConsumableSet d .filter 100 else c
  if plan.kind = .filterRemove then
    c.onDevice fun d => nivonaConsumableSet d .filter 0
  else c

/-- The process code of a cycle, replaced where it means brewing or ready. -/
def cycleEmitCode (fam : Family) (k : CycleKind) : Int16 :=
  if k.code = fam.processBrewing ∨ k.code = fam.processReady then 99 else k.code

/-- One step of `cycle_task`. -/
def cycleTaskStep (c : Core) : CyclePc → TaskStep CyclePc
  | .entry =>
      match findPlan c.cycle.kind with
      | none => ⟨{ c with cycle := { c.cycle with active := false } }, none, false⟩
      | some plan =>
          if plan.prepManip ≠ 0 then
            ⟨nivonaFsmSetManipulation c plan.prepManip, some (.prep plan), true⟩
          else ⟨c, some (.announce plan), false⟩
  | .prep plan => ⟨nivonaFsmSetManipulation c MANIP_NONE, some (.announce plan), false⟩
  | .announce plan =>
      ⟨nivonaFsmSetProcess c (cycleEmitCode c.family plan.kind) 0, some (.tick plan 0), true⟩
  | .tick plan elapsed =>
      if elapsed < plan.totalMs ∧ c.cycle.cancel = false then
        let elapsed := elapsed + min (plan.totalMs - elapsed) TICK_MS
        ⟨nivonaFsmSetProgress c (progressPct elapsed plan.totalMs),
          some (.tick plan elapsed), true⟩
      else ⟨c, some (.check plan), false⟩
  | .check plan =>
      ⟨c, some (if c.cycle.cancel then .ready else .complete plan), false⟩
  | .complete plan => ⟨cycleComplete plan c, some .ready, false⟩
  | .ready =>
      let c := nivonaFsmSetProcess c c.family.processReady 0
      ⟨nivonaFsmSetProgress c 0, some .review, false⟩
  | .review => ⟨nivonaMaintReevaluate c, some .cleanup, true⟩
  | .cleanup =>
      ⟨{ c with cycle := { c.cycle with active := false, cancel := false } }, none, false⟩

/-- Run one step of the `i`-th cycle task, and say whether it pushes the status. -/
def cycleTask (c : Core) (i : ℕ) : Core × Bool :=
  match c.cycle.tasks[i]? with
  | none => (c, false)
  | some pc =>
      let r := cycleTaskStep c pc
      let tasks := match r.next with
        | some pc' => c.cycle.tasks.set i pc'
        | none => c.cycle.tasks.eraseIdx i
      ({ r.core with cycle := { r.core.cycle with tasks := tasks } }, r.push)

def nivonaMaintCycleInit (c : Core) : Core :=
  { c with cycle := { c.cycle with lockReady := true } }

/-- The check-and-set section under the cycle lock. -/
def cycleCommit (c : Core) (kind : CycleKind) : Core × Bool :=
  if c.cycle.active then (c, false)
  else
    let c := { c with cycle := { c.cycle with kind := kind, active := true, cancel := false } }
    let (created, c) := c.xTaskCreate
    if created then
      ({ c with cycle := { c.cycle with tasks := c.cycle.tasks ++ [.entry] } }, true)
    else
      ({ c with cycle := { c.cycle with active := false } }, false)

def nivonaMaintCycleStart (c : Core) (kind : CycleKind) : Core × Bool :=
  if !c.cycle.lockReady then (c, false)
  else if nivonaBrewActive c then (c, false)
  else match findPlan kind with
    | none => (c, false)
    | some _ => cycleCommit c kind

def nivonaMaintCycleCancel (c : Core) : Core :=
  if c.cycle.lockReady && c.cycle.active then
    { c with cycle := { c.cycle with cancel := true } }
  else c

/-- Every kind has a plan of that kind. -/
theorem findPlan_isSome (k : CycleKind) : ∃ plan, findPlan k = some plan ∧ plan.kind = k := by
  cases k <;> exact ⟨_, rfl, rfl⟩

/-! ## What a step touches -/

/-- Cancelling touches the flag for it alone. -/
theorem nivonaMaintCycleCancel_frame (c : Core) :
    ∃ cancel, nivonaMaintCycleCancel c =
      { c with cycle := { c.cycle with cancel := cancel } } := by
  rw [nivonaMaintCycleCancel]
  split
  · exact ⟨true, rfl⟩
  · exact ⟨c.cycle.cancel, rfl⟩

/-- The completion works on registers and consumables alone. -/
theorem cycleComplete_eq (plan : CyclePlan) (c : Core) :
    cycleComplete plan c = { c with device := (cycleComplete plan c).device } := by
  simp only [cycleComplete]
  split_ifs <;> rfl

theorem cycleComplete_family (plan : CyclePlan) (c : Core) :
    (cycleComplete plan c).device.family = c.device.family := by
  simp only [cycleComplete]
  split_ifs <;> rfl

/-- A step of the task leaves the other module and the family alone, and only the last one
touches the cycle flags. -/
theorem cycleTaskStep_frame (c : Core) (pc : CyclePc) :
    (cycleTaskStep c pc).core.cycle =
        (if pc = .cleanup then { c.cycle with active := false, cancel := false } else c.cycle) ∧
      (cycleTaskStep c pc).core.brew = c.brew ∧
      (cycleTaskStep c pc).core.device.family = c.device.family := by
  cases pc with
  | entry =>
      obtain ⟨plan, hplan, -⟩ := findPlan_isSome c.cycle.kind
      simp only [cycleTaskStep, hplan]
      split <;> exact ⟨rfl, rfl, rfl⟩
  | tick plan elapsed =>
      simp only [cycleTaskStep]
      split <;> exact ⟨rfl, rfl, rfl⟩
  | complete plan =>
      simp only [cycleTaskStep]
      rw [cycleComplete_eq]
      exact ⟨rfl, rfl, cycleComplete_family plan c⟩
  | _ => exact ⟨rfl, rfl, rfl⟩

theorem cycleTaskStep_cycle (c : Core) (pc : CyclePc) :
    (cycleTaskStep c pc).core.cycle =
      if pc = .cleanup then { c.cycle with active := false, cancel := false } else c.cycle :=
  (cycleTaskStep_frame c pc).1

theorem cycleTaskStep_brew (c : Core) (pc : CyclePc) :
    (cycleTaskStep c pc).core.brew = c.brew :=
  (cycleTaskStep_frame c pc).2.1

theorem cycleTaskStep_family (c : Core) (pc : CyclePc) :
    (cycleTaskStep c pc).core.device.family = c.device.family :=
  (cycleTaskStep_frame c pc).2.2

/-- Where a cycle task goes from each program point. -/
inductive CyclePc.Next (c : Core) : CyclePc → CyclePc → Prop
  | raise {plan : CyclePlan} (hplan : findPlan c.cycle.kind = some plan) :
      Next c .entry (.prep plan)
  | noPrep {plan : CyclePlan} (hplan : findPlan c.cycle.kind = some plan) :
      Next c .entry (.announce plan)
  | prep (plan : CyclePlan) : Next c (.prep plan) (.announce plan)
  | announce (plan : CyclePlan) : Next c (.announce plan) (.tick plan 0)
  | tick {plan : CyclePlan} {elapsed : UInt32} (hlt : elapsed < plan.totalMs) :
      Next c (.tick plan elapsed) (.tick plan (elapsed + min (plan.totalMs - elapsed) TICK_MS))
  | rampEnd (plan : CyclePlan) (elapsed : UInt32) : Next c (.tick plan elapsed) (.check plan)
  | approved (plan : CyclePlan) (hcancel : c.cycle.cancel = false) :
      Next c (.check plan) (.complete plan)
  | cancelled (plan : CyclePlan) (hcancel : c.cycle.cancel = true) : Next c (.check plan) .ready
  | complete (plan : CyclePlan) : Next c (.complete plan) .ready
  | ready : Next c .ready .review
  | review : Next c .review .cleanup

/-- The task goes on until its cleanup. -/
theorem cycleTaskStep_next (c : Core) (pc : CyclePc) (hpc : pc ≠ .cleanup) :
    ∃ pc', (cycleTaskStep c pc).next = some pc' ∧ pc.Next c pc' := by
  cases pc with
  | entry =>
      obtain ⟨plan, hplan, -⟩ := findPlan_isSome c.cycle.kind
      simp only [cycleTaskStep, hplan]
      split
      · exact ⟨_, rfl, .raise hplan⟩
      · exact ⟨_, rfl, .noPrep hplan⟩
  | prep plan => exact ⟨_, rfl, .prep plan⟩
  | announce plan => exact ⟨_, rfl, .announce plan⟩
  | tick plan elapsed =>
      simp only [cycleTaskStep]
      split
      · rename_i hlt
        exact ⟨_, rfl, .tick hlt.1⟩
      · exact ⟨_, rfl, .rampEnd ..⟩
  | check plan =>
      refine ⟨_, rfl, ?_⟩
      split
      · exact .cancelled plan ‹_›
      · exact .approved plan (Bool.eq_false_of_not_eq_true ‹_›)
  | complete plan => exact ⟨_, rfl, .complete plan⟩
  | ready => exact ⟨_, rfl, .ready⟩
  | review => exact ⟨_, rfl, .review⟩
  | cleanup => exact absurd rfl hpc

theorem CyclePc.next_of_step {c : Core} {pc pc' : CyclePc}
    (h : (cycleTaskStep c pc).next = some pc') : pc.Next c pc' := by
  have hpc : pc ≠ .cleanup := by
    rintro rfl
    exact absurd h (by simp [cycleTaskStep])
  obtain ⟨next, hnext, hmove⟩ := cycleTaskStep_next c pc hpc
  obtain rfl := Option.some.inj (hnext.symm.trans h)
  exact hmove

/-- Only the review leads to the cleanup. -/
theorem CyclePc.Next.eq_review {c : Core} {pc : CyclePc} (h : pc.Next c .cleanup) :
    pc = .review := by
  cases h
  rfl

/-- Apart from the list of tasks, a task does what its program point says. -/
theorem cycleTask_core {c : Core} {i : ℕ} {pc : CyclePc} (hpc : c.cycle.tasks[i]? = some pc) :
    ∃ tasks, (cycleTask c i).1 = { (cycleTaskStep c pc).core with
      cycle := { (cycleTaskStep c pc).core.cycle with tasks := tasks } } := by
  rw [cycleTask, hpc]
  exact ⟨_, rfl⟩

theorem cycleTask_brew (c : Core) (i : ℕ) : (cycleTask c i).1.brew = c.brew := by
  rw [cycleTask]
  split
  · rfl
  · exact cycleTaskStep_brew c _

theorem cycleTask_family (c : Core) (i : ℕ) :
    (cycleTask c i).1.device.family = c.device.family := by
  rw [cycleTask]
  split
  · rfl
  · exact cycleTaskStep_family c _

theorem cycleTask_lockReady (c : Core) (i : ℕ) :
    (cycleTask c i).1.cycle.lockReady = c.cycle.lockReady := by
  rw [cycleTask]
  split
  · rfl
  · dsimp only
    rw [cycleTaskStep_cycle]
    split <;> rfl

/-- No step of a task sets the flag. -/
theorem active_of_cycleTask {c : Core} {i : ℕ} (h : (cycleTask c i).1.cycle.active = true) :
    c.cycle.active = true := by
  rw [cycleTask] at h
  split at h
  · exact h
  · dsimp only at h
    rw [cycleTaskStep_cycle] at h
    split at h
    · exact absurd h Bool.false_ne_true
    · exact h

/-- The section sets the flag only when it is clear and the task is created. -/
theorem cycleCommit_cases (c : Core) (kind : CycleKind) :
    (c.cycle.active = true ∧ cycleCommit c kind = (c, false)) ∨
    (c.cycle.active = false ∧ c.taskResults 0 = false ∧
      ∃ cycle, cycleCommit c kind = ({ c.xTaskCreate.2 with cycle := cycle }, false) ∧
        cycle.lockReady = c.cycle.lockReady ∧ cycle.active = false ∧
        cycle.tasks = c.cycle.tasks) ∨
    (c.cycle.active = false ∧ c.taskResults 0 = true ∧
      ∃ cycle, cycleCommit c kind = ({ c.xTaskCreate.2 with cycle := cycle }, true) ∧
        cycle.lockReady = c.cycle.lockReady ∧ cycle.active = true ∧
        cycle.tasks = c.cycle.tasks ++ [.entry]) := by
  by_cases hactive : c.cycle.active = true
  · exact .inl ⟨hactive, by simp [cycleCommit, hactive]⟩
  · rw [Bool.not_eq_true] at hactive
    right
    by_cases htask : c.taskResults 0 = true
    · right
      refine ⟨hactive, htask, { c.cycle with
        kind := kind, active := true, cancel := false, tasks := c.cycle.tasks ++ [.entry] },
        ?_, rfl, rfl, rfl⟩
      simp [cycleCommit, Core.xTaskCreate, hactive, htask]
    · left
      rw [Bool.not_eq_true] at htask
      refine ⟨hactive, htask, { c.cycle with kind := kind, active := false, cancel := false },
        ?_, rfl, rfl, rfl⟩
      simp [cycleCommit, Core.xTaskCreate, hactive, htask]

/-- The section touches nothing but the cycle module. -/
theorem cycleCommit_frame (c : Core) (kind : CycleKind) :
    ∃ cycle taskResults, cycle.lockReady = c.cycle.lockReady ∧
      (cycleCommit c kind).1 = { c with cycle := cycle, taskResults := taskResults } := by
  rcases cycleCommit_cases c kind with
    ⟨-, he⟩ | ⟨-, -, cycle, he, hlock, -⟩ | ⟨-, -, cycle, he, hlock, -⟩
  · exact ⟨c.cycle, c.taskResults, rfl, by rw [he]⟩
  · exact ⟨cycle, c.xTaskCreate.2.taskResults, hlock, by rw [he]; rfl⟩
  · exact ⟨cycle, c.xTaskCreate.2.taskResults, hlock, by rw [he]; rfl⟩

/-- The cycle call returns without effect or gets to its section. -/
theorem nivonaMaintCycleStart_cases (c : Core) (kind : CycleKind) :
    nivonaMaintCycleStart c kind = (c, false) ∨
    (nivonaBrewActive c = false ∧ nivonaMaintCycleStart c kind = cycleCommit c kind) := by
  rw [nivonaMaintCycleStart]
  split
  · exact .inl rfl
  · split
    · exact .inl rfl
    · rename_i hbrew
      split
      · exact .inl rfl
      · exact .inr ⟨by simpa using hbrew, rfl⟩

end Nivona
