import NivonaEmulator.Exclusion
import NivonaEmulator.Lib.TaskLife

/-!
# The life of a brew and of a cycle

Start calls, cancels and the steps of the tasks are interleaved section by
section.  Each of the two modules then behaves like one task slot: there is at
most one task, it uses what its own start call stored, and it applies its
counters and wear once unless a cancel was accepted before its check.
-/

namespace Nivona

open TaskLife (Phase Slot SlotEvent History Life)

/-! ## The brew module as a task slot -/

/-- How far a brew task has got. -/
def BrewPc.phase : BrewPc → Phase BrewArg
  | .entry => .created
  | .stage run _ _ | .tick run _ _ _ | .ready run | .check run => .running run.arg
  | .wear run => .approved run.arg
  | .review | .cleanup => .finishing

def BrewModule.slot (b : BrewModule) : Slot BrewArg :=
  { active := b.active, cancel := b.cancel, arg := b.arg, tasks := b.tasks.map BrewPc.phase }

/-- What an action is for the brew module; effects are recorded with the family
that is current. -/
def brewEvent (s : Concurrent) : Action → SlotEvent BrewArg FamilyId
  | .resume i =>
      match s.calls[i]? with
      | some (.brewSection sel recipe twoCups) =>
          .start { selector := sel, recipe := some recipe, twoCups := twoCups }
            (s.core.taskResults 0)
      | _ => .other
  | .op .brewCancel => .cancel
  | .op (.brewTask i) =>
      match s.core.brew.tasks[i]? with
      | some .entry => .take i
      | some (.check _) => .check i
      | some (.wear _) => .apply i s.core.device.family
      | some .cleanup => .finish i
      | _ => .other
  | .op (.reboot _) => .restart { selector := 0, recipe := none, twoCups := false }
  | .op _ => .other

/-- What the brew tasks of a run have done. -/
def brewHistory (s : Concurrent) (actions : List Action) : History BrewArg FamilyId :=
  TaskLife.historyOf concurrentStep (fun s => s.core.brew.slot) brewEvent s actions

/-! ## The cycle module as a task slot -/

/-- How far a cycle task has got. -/
def CyclePc.phase : CyclePc → Phase CycleKind
  | .entry => .created
  | .prep plan | .announce plan | .tick plan _ | .check plan => .running plan.kind
  | .complete plan => .approved plan.kind
  | .ready | .review | .cleanup => .finishing

def CycleModule.slot (m : CycleModule) : Slot CycleKind :=
  { active := m.active, cancel := m.cancel, arg := m.kind, tasks := m.tasks.map CyclePc.phase }

/-- What an action is for the cycle module. -/
def cycleEvent (s : Concurrent) : Action → SlotEvent CycleKind FamilyId
  | .resume i =>
      match s.calls[i]? with
      | some (.cycleSection kind) => .start kind (s.core.taskResults 0)
      | _ => .other
  | .op .cycleCancel => .cancel
  | .op (.cycleTask i) =>
      match s.core.cycle.tasks[i]? with
      | some .entry => .take i
      | some (.check _) => .check i
      | some (.complete _) => .apply i s.core.device.family
      | some .cleanup => .finish i
      | _ => .other
  | .op (.reboot _) => .restart .genericClean
  | .op _ => .other

/-- What the cycle tasks of a run have done. -/
def cycleHistory (s : Concurrent) (actions : List Action) : History CycleKind FamilyId :=
  TaskLife.historyOf concurrentStep (fun s => s.core.cycle.slot) cycleEvent s actions

/-! ## Steps of the tasks -/

/-- A step takes a brew task to the next phase. -/
theorem brewTaskStep_phase (c : Core) (pc : BrewPc) :
    (brewTaskStep c pc).next.map BrewPc.phase =
      match pc with
      | .entry => some (.running c.brew.arg)
      | .check run => some (if c.brew.cancel then .finishing else .approved run.arg)
      | .wear _ => some .finishing
      | .cleanup => none
      | pc => some pc.phase := by
  cases pc with
  | entry => rfl
  | stage run i elapsedMs => simp only [brewTaskStep]; split <;> rfl
  | tick run i stageElapsed elapsedMs =>
      simp only [brewTaskStep]
      split
      · rfl
      · split <;> rfl
  | check run => simp only [brewTaskStep]; split <;> rfl
  | _ => rfl

/-- A step takes a cycle task to the next phase. -/
theorem cycleTaskStep_phase (c : Core) (pc : CyclePc) :
    (cycleTaskStep c pc).next.map CyclePc.phase =
      match pc with
      | .entry => some (.running c.cycle.kind)
      | .check plan => some (if c.cycle.cancel then .finishing else .approved plan.kind)
      | .complete _ => some .finishing
      | .cleanup => none
      | pc => some pc.phase := by
  cases pc with
  | entry =>
      obtain ⟨plan, hplan, hkind⟩ := findPlan_isSome c.cycle.kind
      simp only [cycleTaskStep, hplan]
      split <;> simp [CyclePc.phase, hkind]
  | tick plan elapsed => simp only [cycleTaskStep]; split <;> rfl
  | check plan => simp only [cycleTaskStep]; split <;> rfl
  | _ => rfl

/-- Storing the entry that is there changes nothing. -/
theorem set_of_getElem? {α : Type*} {l : List α} {i : ℕ} {a : α} (h : l[i]? = some a) :
    l.set i a = l := by
  obtain ⟨hi, rfl⟩ := List.getElem?_eq_some_iff.mp h
  exact List.set_getElem_self hi

/-- A step that is not the last one moves the task's entry on. -/
theorem slot_brewTask_of_phase {c : Core} {i : ℕ} {pc : BrewPc} {p : Phase BrewArg}
    (hpc : c.brew.tasks[i]? = some pc)
    (hp : (brewTaskStep c pc).next.map BrewPc.phase = some p) :
    (brewTask c i).1.brew.slot =
      { c.brew.slot with tasks := c.brew.slot.tasks.set i p } := by
  obtain ⟨pc', hnext, rfl⟩ := Option.map_eq_some_iff.mp hp
  have hflags := brewTaskStep_brew c pc
  rw [if_neg (by rintro rfl; exact absurd hnext (by simp [brewTaskStep]))] at hflags
  simp [brewTask, hpc, hnext, hflags, BrewModule.slot, List.map_set]

/-- A step of a brew task acts on the slot as its event says. -/
theorem slot_brewTask (s : Concurrent) (i : ℕ) :
    (brewTask s.core i).1.brew.slot = s.core.brew.slot.step (brewEvent s (.op (.brewTask i))) := by
  rcases hpc : s.core.brew.tasks[i]? with _ | pc
  · simp [brewTask, brewEvent, hpc, Slot.step]
  · have hslot : s.core.brew.slot.tasks[i]? = some pc.phase := by
      simp [BrewModule.slot, hpc]
    have hphase := brewTaskStep_phase s.core pc
    have hstay (hp : (brewTaskStep s.core pc).next.map BrewPc.phase = some pc.phase) :
        (brewTask s.core i).1.brew.slot = s.core.brew.slot := by
      rw [slot_brewTask_of_phase hpc hp, set_of_getElem? hslot]
    cases pc with
    | entry =>
        rw [slot_brewTask_of_phase hpc hphase]
        simp only [brewEvent, hpc, Slot.step, hslot, BrewPc.phase]
        rfl
    | check run =>
        rw [slot_brewTask_of_phase hpc hphase]
        simp only [brewEvent, hpc, Slot.step, hslot, BrewPc.phase]
        rfl
    | wear run =>
        rw [slot_brewTask_of_phase hpc hphase]
        simp only [brewEvent, hpc, Slot.step, hslot, BrewPc.phase]
    | cleanup =>
        simp only [brewEvent, hpc, Slot.step, hslot, BrewPc.phase]
        simp [brewTask, hpc, brewTaskStep, BrewModule.slot, List.eraseIdx_map]
    | _ =>
        rw [hstay hphase]
        simp only [brewEvent, hpc, Slot.step]

theorem slot_cycleTask_of_phase {c : Core} {i : ℕ} {pc : CyclePc} {p : Phase CycleKind}
    (hpc : c.cycle.tasks[i]? = some pc)
    (hp : (cycleTaskStep c pc).next.map CyclePc.phase = some p) :
    (cycleTask c i).1.cycle.slot =
      { c.cycle.slot with tasks := c.cycle.slot.tasks.set i p } := by
  obtain ⟨pc', hnext, rfl⟩ := Option.map_eq_some_iff.mp hp
  have hflags := cycleTaskStep_cycle c pc
  rw [if_neg (by rintro rfl; exact absurd hnext (by simp [cycleTaskStep]))] at hflags
  simp [cycleTask, hpc, hnext, hflags, CycleModule.slot, List.map_set]

/-- A step of a cycle task acts on the slot as its event says. -/
theorem slot_cycleTask (s : Concurrent) (i : ℕ) :
    (cycleTask s.core i).1.cycle.slot =
      s.core.cycle.slot.step (cycleEvent s (.op (.cycleTask i))) := by
  rcases hpc : s.core.cycle.tasks[i]? with _ | pc
  · simp [cycleTask, cycleEvent, hpc, Slot.step]
  · have hslot : s.core.cycle.slot.tasks[i]? = some pc.phase := by
      simp [CycleModule.slot, hpc]
    have hphase := cycleTaskStep_phase s.core pc
    have hstay (hp : (cycleTaskStep s.core pc).next.map CyclePc.phase = some pc.phase) :
        (cycleTask s.core i).1.cycle.slot = s.core.cycle.slot := by
      rw [slot_cycleTask_of_phase hpc hp, set_of_getElem? hslot]
    cases pc with
    | entry =>
        rw [slot_cycleTask_of_phase hpc hphase]
        simp only [cycleEvent, hpc, Slot.step, hslot, CyclePc.phase]
        rfl
    | check plan =>
        rw [slot_cycleTask_of_phase hpc hphase]
        simp only [cycleEvent, hpc, Slot.step, hslot, CyclePc.phase]
        rfl
    | complete plan =>
        rw [slot_cycleTask_of_phase hpc hphase]
        simp only [cycleEvent, hpc, Slot.step, hslot, CyclePc.phase]
    | cleanup =>
        simp only [cycleEvent, hpc, Slot.step, hslot, CyclePc.phase]
        simp [cycleTask, hpc, cycleTaskStep, CycleModule.slot, List.eraseIdx_map]
    | _ =>
        rw [hstay hphase]
        simp only [cycleEvent, hpc, Slot.step]

/-! ## Steps of the system -/

theorem slot_brewCommit (c : Core) (sel : UInt8) (recipe : Recipe) (twoCups : Bool) :
    (brewCommit c sel recipe twoCups).1.brew.slot =
      c.brew.slot.step (.start { selector := sel, recipe := some recipe, twoCups := twoCups }
        (c.taskResults 0) : SlotEvent BrewArg FamilyId) := by
  by_cases hactive : c.brew.active = true
  · simp [brewCommit, Slot.step, BrewModule.slot, hactive]
  · cases htask : c.taskResults 0 <;>
      simp [brewCommit, Slot.step, BrewModule.slot, BrewPc.phase, Core.xTaskCreate, hactive, htask]

theorem slot_cycleCommit (c : Core) (kind : CycleKind) :
    (cycleCommit c kind).1.cycle.slot =
      c.cycle.slot.step (.start kind (c.taskResults 0) : SlotEvent CycleKind FamilyId) := by
  by_cases hactive : c.cycle.active = true
  · simp [cycleCommit, Slot.step, CycleModule.slot, hactive]
  · cases htask : c.taskResults 0 <;>
      simp [cycleCommit, Slot.step, CycleModule.slot, CyclePc.phase, Core.xTaskCreate, hactive,
        htask]

theorem slot_nivonaBrewCancel {c : Core} (h : c.brew.lockReady = true) :
    (nivonaBrewCancel c).brew.slot =
      c.brew.slot.step (.cancel : SlotEvent BrewArg FamilyId) := by
  cases hactive : c.brew.active <;>
    simp [nivonaBrewCancel, h, hactive, Slot.step, BrewModule.slot]

theorem slot_nivonaMaintCycleCancel {c : Core} (h : c.cycle.lockReady = true) :
    (nivonaMaintCycleCancel c).cycle.slot =
      c.cycle.slot.step (.cancel : SlotEvent CycleKind FamilyId) := by
  cases hactive : c.cycle.active <;>
    simp [nivonaMaintCycleCancel, h, hactive, Slot.step, CycleModule.slot]

/-- Both modules have been initialised. -/
def Booted (s : Concurrent) : Prop :=
  s.core.brew.lockReady = true ∧ s.core.cycle.lockReady = true

theorem booted_step (s : Concurrent) (a : Action) (h : Booted s) : Booted (concurrentStep s a) := by
  obtain ⟨hbrew, hcycle⟩ := h
  have hquiet {o : Op} (ho : o.quiet = true) : (coreStep s.core o).brew.lockReady = true ∧
      (coreStep s.core o).cycle.lockReady = true := by
    obtain ⟨hb, hc⟩ := coreStep_quiet s.core ho
    exact ⟨hb ▸ hbrew, hc ▸ hcycle⟩
  rw [Booted]
  rcases concurrentStep_core_cases s a with
    ⟨he, -⟩ | ⟨o, -, hstart, he⟩ | ⟨i, sel, recipe, twoCups, -, -, he⟩ | ⟨i, kind, -, -, he⟩
  · rw [he]
    exact ⟨hbrew, hcycle⟩
  · rw [he]
    cases o with
    | brewStart processValue twoCups => exact absurd hstart (by simp [Op.starts])
    | cycleStart kind => exact absurd hstart (by simp [Op.starts])
    | reboot it =>
        have hb := appMain_brew it s.core.device.nvs s.core.taskResults
        have hc := appMain_cycle it s.core.device.nvs s.core.taskResults
        simp [coreStep, reboot, hb, hc]
    | brewCancel =>
        obtain ⟨cancel, hcancel⟩ := nivonaBrewCancel_frame s.core
        rw [coreStep, hcancel]
        exact ⟨hbrew, hcycle⟩
    | cycleCancel =>
        obtain ⟨cancel, hcancel⟩ := nivonaMaintCycleCancel_frame s.core
        rw [coreStep, hcancel]
        exact ⟨hbrew, hcycle⟩
    | brewTask i =>
        exact ⟨(brewTask_lockReady _ _).trans hbrew,
          (congrArg _ (brewTask_cycle _ _)).trans hcycle⟩
    | cycleTask i =>
        exact ⟨(congrArg _ (cycleTask_brew _ _)).trans hbrew,
          (cycleTask_lockReady _ _).trans hcycle⟩
    | _ => exact hquiet rfl
  · obtain ⟨brew, taskResults, hlock, hcommit⟩ := brewCommit_frame s.core sel recipe twoCups
    rw [he, hcommit]
    exact ⟨hlock.trans hbrew, hcycle⟩
  · obtain ⟨cycle, taskResults, hlock, hcommit⟩ := cycleCommit_frame s.core kind
    rw [he, hcommit]
    exact ⟨hbrew, hlock.trans hcycle⟩

/-- Every step acts on the brew slot as its event says. -/
theorem slot_concurrentStep_brew (s : Concurrent) (a : Action) (h : Booted s) :
    (concurrentStep s a).core.brew.slot = s.core.brew.slot.step (brewEvent s a) := by
  cases a with
  | op o =>
      cases o with
      | reboot it => exact congrArg BrewModule.slot (appMain_brew it _ _)
      | brewCancel => exact slot_nivonaBrewCancel h.1
      | brewTask i => exact slot_brewTask s i
      | cycleTask i => exact congrArg _ (cycleTask_brew s.core i)
      | cycleCancel =>
          obtain ⟨cancel, he⟩ := nivonaMaintCycleCancel_frame s.core
          simp only [concurrentStep, coreStep, he]
          rfl
      | brewStart processValue twoCups => rfl
      | cycleStart kind => rfl
      | _ => exact congrArg BrewModule.slot (coreStep_quiet s.core rfl).1
  | resume i =>
      rcases hcall : s.calls[i]? with _ | call
      · simp [concurrentStep, brewEvent, hcall, Slot.step]
      · rw [resume_core hcall]
        cases call with
        | brewSection sel recipe twoCups =>
            simp only [brewEvent, hcall]
            exact slot_brewCommit s.core sel recipe twoCups
        | cycleSection kind =>
            obtain ⟨cycle, taskResults, -, hcommit⟩ := cycleCommit_frame s.core kind
            simp only [brewEvent, hcall, startCallStep, hcommit, Slot.step]
        | _ =>
            simp only [brewEvent, hcall, Slot.step]
            rw [startCallStep_core (by simp) (by simp)]

/-- Every step acts on the cycle slot as its event says. -/
theorem slot_concurrentStep_cycle (s : Concurrent) (a : Action) (h : Booted s) :
    (concurrentStep s a).core.cycle.slot = s.core.cycle.slot.step (cycleEvent s a) := by
  cases a with
  | op o =>
      cases o with
      | reboot it => exact congrArg CycleModule.slot (appMain_cycle it _ _)
      | cycleCancel => exact slot_nivonaMaintCycleCancel h.2
      | cycleTask i => exact slot_cycleTask s i
      | brewTask i => exact congrArg _ (brewTask_cycle s.core i)
      | brewCancel =>
          obtain ⟨cancel, he⟩ := nivonaBrewCancel_frame s.core
          simp only [concurrentStep, coreStep, he]
          rfl
      | brewStart processValue twoCups => rfl
      | cycleStart kind => rfl
      | _ => exact congrArg CycleModule.slot (coreStep_quiet s.core rfl).2
  | resume i =>
      rcases hcall : s.calls[i]? with _ | call
      · simp [concurrentStep, cycleEvent, hcall, Slot.step]
      · rw [resume_core hcall]
        cases call with
        | brewSection sel recipe twoCups =>
            obtain ⟨brew, taskResults, -, hcommit⟩ := brewCommit_frame s.core sel recipe twoCups
            simp only [cycleEvent, hcall, startCallStep, hcommit, Slot.step]
        | cycleSection kind =>
            simp only [cycleEvent, hcall]
            exact slot_cycleCommit s.core kind
        | _ =>
            simp only [cycleEvent, hcall, Slot.step]
            rw [startCallStep_core (by simp) (by simp)]

theorem booted_boot (it : NvsIterator) (nvs : Nvs) (taskResults : ℕ → Bool) :
    Booted (Concurrent.boot it nvs taskResults) := by
  rw [Booted, Concurrent.boot, appMain_brew, appMain_cycle]
  exact ⟨rfl, rfl⟩

/-! ## Tasks end -/

/-- More ticks than a loop that counts milliseconds can take. -/
def tickBound : ℕ := 2 ^ 32

/-- Steps a brew task has left at most. -/
def BrewPc.rank : BrewPc → ℕ
  | .entry => 3 * (tickBound + 2) + 6
  | .stage run i _ => (run.stages.length - i) * (tickBound + 2) + 5
  | .tick run i stageElapsed _ =>
      (run.stages.length - i - 1) * (tickBound + 2) + 6 +
        match run.stages[i]? with
        | some st => (stageMs run st).toNat - stageElapsed.toNat
        | none => 0
  | .ready _ => 4
  | .check _ => 3
  | .wear _ => 2
  | .review => 1
  | .cleanup => 0

theorem length_findRamp_stages (cat : RecipeCategory) : (findRamp cat).stages.length ≤ 3 := by
  cases cat <;> decide

/-- A counter that is below its bound grows and stays within it. -/
theorem toNat_add_min {a b c : UInt32} (h : a < b) (hc : 0 < c) :
    a.toNat < (a + min (b - a) c).toNat ∧ (a + min (b - a) c).toNat ≤ b.toNat := by
  have hsub : (b - a).toNat = b.toNat - a.toNat := UInt32.toNat_sub_of_le _ _ (UInt32.le_of_lt h)
  have hb := b.toNat_lt
  rw [UInt32.lt_iff_toNat_lt] at h hc
  have hmin : (min (b - a) c).toNat = min (b.toNat - a.toNat) c.toNat := by
    change (if b - a ≤ c then b - a else c).toNat = _
    simp only [Nat.min_def, UInt32.le_iff_toNat_le, hsub]
    split <;> simp [hsub]
  have hc0 : 0 < c.toNat := by simpa using hc
  rw [UInt32.toNat_add, hmin, Nat.mod_eq_of_lt] <;> omega

/-- Every step of a brew task lowers its rank. -/
theorem BrewPc.Next.rank_lt {c : Core} {pc pc' : BrewPc} (h : pc.Next c pc') :
    pc'.rank < pc.rank := by
  cases h with
  | start =>
      have hlen := length_findRamp_stages ((c.brew.arg.recipe.map Recipe.category).getD .coffee)
      simp only [BrewPc.rank, brewRun, Nat.sub_zero]
      have hmul := Nat.mul_le_mul_right (tickBound + 2) hlen
      omega
  | @stage run i st elapsedMs hst =>
      have hi : i < run.stages.length := (List.getElem?_eq_some_iff.mp hst).1
      simp only [BrewPc.rank, hst]
      have hb := (stageMs run st).toNat_lt
      rw [UInt32.toNat_zero, Nat.sub_zero]
      obtain ⟨k, hk⟩ : ∃ k, run.stages.length - i = k + 1 := ⟨run.stages.length - i - 1, by omega⟩
      rw [hk, Nat.add_sub_cancel, Nat.add_mul, tickBound]
      omega
  | tick elapsedMs elapsedMs' hst hlt =>
      obtain ⟨hmore, hle⟩ := toNat_add_min (c := TICK_MS) hlt (by decide)
      have hfall := Nat.sub_lt_sub_left (Nat.lt_of_lt_of_le hmore hle) hmore
      simp only [BrewPc.rank, hst]
      exact Nat.add_lt_add_left hfall _
  | stageEnd stageElapsed elapsedMs hst =>
      simp only [BrewPc.rank, hst, Nat.sub_sub]
      omega
  | _ =>
      simp only [BrewPc.rank]
      omega

/-- Steps a cycle task has left at most. -/
def CyclePc.rank : CyclePc → ℕ
  | .entry => tickBound + 8
  | .prep _ => tickBound + 7
  | .announce _ => tickBound + 6
  | .tick plan elapsed => plan.totalMs.toNat - elapsed.toNat + 5
  | .check _ => 4
  | .complete _ => 3
  | .ready => 2
  | .review => 1
  | .cleanup => 0

/-- Every step of a cycle task lowers its rank. -/
theorem CyclePc.Next.rank_lt {c : Core} {pc pc' : CyclePc} (h : pc.Next c pc') :
    pc'.rank < pc.rank := by
  cases h with
  | announce plan =>
      have hb := plan.totalMs.toNat_lt
      simp only [CyclePc.rank, tickBound, UInt32.toNat_zero]
      omega
  | tick hlt =>
      obtain ⟨hmore, hle⟩ := toNat_add_min (c := TICK_MS) hlt (by decide)
      have hfall := Nat.sub_lt_sub_left (Nat.lt_of_lt_of_le hmore hle) hmore
      exact Nat.add_lt_add_right hfall 5
  | _ =>
      simp only [CyclePc.rank]
      omega

/-- A restart. -/
def Action.isRestart : Action → Bool
  | .op (.reboot _) => true
  | _ => false

/-- A step of the brew task. -/
def Action.isBrewStep : Action → Bool
  | .op (.brewTask 0) => true
  | _ => false

/-- A step of the cycle task. -/
def Action.isCycleStep : Action → Bool
  | .op (.cycleTask 0) => true
  | _ => false

/-- Rank of the first task. -/
def BrewModule.rank (b : BrewModule) : ℕ :=
  (b.tasks.head?.map BrewPc.rank).getD 0

def CycleModule.rank (m : CycleModule) : ℕ :=
  (m.tasks.head?.map CyclePc.rank).getD 0

/-- An operation that starts nothing leaves the tasks of a module alone, unless it is a step of
one of them or a restart. -/
theorem tasks_coreStep (c : Core) {o : Op} (hrestart : (Action.op o).isRestart = false)
    (hstart : o.starts = false) :
    ((∀ i, Action.op o ≠ .op (.brewTask i)) → (coreStep c o).brew.tasks = c.brew.tasks) ∧
      ((∀ i, Action.op o ≠ .op (.cycleTask i)) →
        (coreStep c o).cycle.tasks = c.cycle.tasks) := by
  have hsame {c' : Core} (hbrew : c'.brew.tasks = c.brew.tasks)
      (hcycle : c'.cycle.tasks = c.cycle.tasks) :
      ((∀ i, Action.op o ≠ .op (.brewTask i)) → c'.brew.tasks = c.brew.tasks) ∧
        ((∀ i, Action.op o ≠ .op (.cycleTask i)) → c'.cycle.tasks = c.cycle.tasks) :=
    ⟨fun _ => hbrew, fun _ => hcycle⟩
  have hquiet (ho : o.quiet = true) := coreStep_quiet c ho
  cases o with
  | reboot it => exact absurd hrestart (by simp [Action.isRestart])
  | brewStart processValue twoCups => exact absurd hstart (by simp [Op.starts])
  | cycleStart kind => exact absurd hstart (by simp [Op.starts])
  | brewTask i =>
      refine ⟨fun htask => absurd rfl (htask i), fun _ => ?_⟩
      rw [coreStep, brewTask_cycle]
  | cycleTask i =>
      refine ⟨fun _ => ?_, fun htask => absurd rfl (htask i)⟩
      rw [coreStep, cycleTask_brew]
  | brewCancel =>
      obtain ⟨cancel, he⟩ := nivonaBrewCancel_frame c
      rw [coreStep, he]
      exact hsame rfl rfl
  | cycleCancel =>
      obtain ⟨cancel, he⟩ := nivonaMaintCycleCancel_frame c
      rw [coreStep, he]
      exact hsame rfl rfl
  | _ => exact hsame (by rw [(hquiet rfl).1]) (by rw [(hquiet rfl).2])

/-- Apart from its own steps and restarts, brew tasks are only added. -/
theorem brewTasks_step (s : Concurrent) {a : Action} (hrestart : a.isRestart = false)
    (htask : ∀ i, a ≠ .op (.brewTask i)) :
    s.core.brew.tasks <+: (concurrentStep s a).core.brew.tasks := by
  have hstay {c : Core} (hc : c.brew.tasks = s.core.brew.tasks) :
      s.core.brew.tasks <+: c.brew.tasks := hc ▸ List.prefix_rfl
  rcases concurrentStep_core_cases s a with
    ⟨he, -⟩ | ⟨o, rfl, hstart, he⟩ | ⟨i, sel, recipe, twoCups, -, -, he⟩ | ⟨i, kind, -, -, he⟩
  · exact hstay (by rw [he])
  · rw [he]
    exact hstay ((tasks_coreStep s.core hrestart hstart).1 htask)
  · rw [he]
    rcases brewCommit_cases s.core sel recipe twoCups with
      ⟨-, hc⟩ | ⟨-, -, brew, hc, -, -, htasks⟩ | ⟨-, -, brew, hc, -, -, htasks⟩
    · exact hstay (by rw [hc])
    · exact hstay (by rw [hc, htasks])
    · rw [hc, htasks]
      exact List.prefix_append _ _
  · obtain ⟨cycle, taskResults, -, hcommit⟩ := cycleCommit_frame s.core kind
    exact hstay (by rw [he, hcommit])

/-- So are cycle tasks. -/
theorem cycleTasks_step (s : Concurrent) {a : Action} (hrestart : a.isRestart = false)
    (htask : ∀ i, a ≠ .op (.cycleTask i)) :
    s.core.cycle.tasks <+: (concurrentStep s a).core.cycle.tasks := by
  have hstay {c : Core} (hc : c.cycle.tasks = s.core.cycle.tasks) :
      s.core.cycle.tasks <+: c.cycle.tasks := hc ▸ List.prefix_rfl
  rcases concurrentStep_core_cases s a with
    ⟨he, -⟩ | ⟨o, rfl, hstart, he⟩ | ⟨i, sel, recipe, twoCups, -, -, he⟩ | ⟨i, kind, -, -, he⟩
  · exact hstay (by rw [he])
  · rw [he]
    exact hstay ((tasks_coreStep s.core hrestart hstart).2 htask)
  · obtain ⟨brew, taskResults, -, hcommit⟩ := brewCommit_frame s.core sel recipe twoCups
    exact hstay (by rw [he, hcommit])
  · rw [he]
    rcases cycleCommit_cases s.core kind with
      ⟨-, hc⟩ | ⟨-, -, cycle, hc, -, -, htasks⟩ | ⟨-, -, cycle, hc, -, -, htasks⟩
    · exact hstay (by rw [hc])
    · exact hstay (by rw [hc, htasks])
    · rw [hc, htasks]
      exact List.prefix_append _ _

theorem head?_of_prefix {α : Type*} {l l' : List α} (h : l <+: l') (hne : l ≠ []) :
    l'.head? = l.head? := by
  obtain ⟨rest, rfl⟩ := h
  exact List.head?_append_of_ne_nil _ hne

/-- No action raises the rank of the brew task, and its own steps lower it. -/
theorem rank_concurrentStep_brew (s : Concurrent) (a : Action) (p : Phase BrewArg)
    (hrestart : a.isRestart = false) (hp : s.core.brew.slot.tasks = [p])
    (hkept : (concurrentStep s a).core.brew.slot.tasks ≠ []) :
    (concurrentStep s a).core.brew.rank + a.isBrewStep.toNat ≤ s.core.brew.rank := by
  obtain ⟨pc, hpc, -⟩ := List.map_eq_singleton_iff.mp hp
  by_cases htask : ∃ i, a = .op (.brewTask i)
  · obtain ⟨i, rfl⟩ := htask
    cases i with
    | succ i =>
        have hstay : (brewTask s.core (i + 1)).1 = s.core := by simp [brewTask, hpc]
        exact Nat.le_of_eq (congrArg (fun c : Core => c.brew.rank) hstay)
    | zero =>
        rcases hnext : (brewTaskStep s.core pc).next with _ | pc'
        · exact absurd
            (by simp [concurrentStep, coreStep, brewTask, hpc, hnext, BrewModule.slot]) hkept
        · have hrank : pc'.rank + 1 ≤ pc.rank := (BrewPc.next_of_step hnext).rank_lt
          simpa [concurrentStep, coreStep, brewTask, hpc, hnext, BrewModule.rank,
            Action.isBrewStep] using hrank
  · rw [not_exists] at htask
    have hhead := head?_of_prefix (brewTasks_step s hrestart htask) (by simp [hpc])
    have hstep : a.isBrewStep = false := by
      rw [Action.isBrewStep.eq_def]
      split
      · exact absurd rfl (htask 0)
      · rfl
    rw [hstep, BrewModule.rank, BrewModule.rank, hhead]
    exact Nat.le_refl _

theorem rank_concurrentStep_cycle (s : Concurrent) (a : Action) (p : Phase CycleKind)
    (hrestart : a.isRestart = false) (hp : s.core.cycle.slot.tasks = [p])
    (hkept : (concurrentStep s a).core.cycle.slot.tasks ≠ []) :
    (concurrentStep s a).core.cycle.rank + a.isCycleStep.toNat ≤ s.core.cycle.rank := by
  obtain ⟨pc, hpc, -⟩ := List.map_eq_singleton_iff.mp hp
  by_cases htask : ∃ i, a = .op (.cycleTask i)
  · obtain ⟨i, rfl⟩ := htask
    cases i with
    | succ i =>
        have hstay : (cycleTask s.core (i + 1)).1 = s.core := by simp [cycleTask, hpc]
        exact Nat.le_of_eq (congrArg (fun c : Core => c.cycle.rank) hstay)
    | zero =>
        rcases hnext : (cycleTaskStep s.core pc).next with _ | pc'
        · exact absurd
            (by simp [concurrentStep, coreStep, cycleTask, hpc, hnext, CycleModule.slot]) hkept
        · have hrank : pc'.rank + 1 ≤ pc.rank := (CyclePc.next_of_step hnext).rank_lt
          simpa [concurrentStep, coreStep, cycleTask, hpc, hnext, CycleModule.rank,
            Action.isCycleStep] using hrank
  · rw [not_exists] at htask
    have hhead := head?_of_prefix (cycleTasks_step s hrestart htask) (by simp [hpc])
    have hstep : a.isCycleStep = false := by
      rw [Action.isCycleStep.eq_def]
      split
      · exact absurd rfl (htask 0)
      · rfl
    rw [hstep, CycleModule.rank, CycleModule.rank, hhead]
    exact Nat.le_refl _

/-! ## The result -/

theorem brewHistory_consistent (it : NvsIterator) (nvs : Nvs) (taskResults : ℕ → Bool)
    (actions : List Action) :
    TaskLife.Consistent
      (Runs.run concurrentStep (Concurrent.boot it nvs taskResults) actions).core.brew.slot
      (brewHistory (Concurrent.boot it nvs taskResults) actions) :=
  TaskLife.consistent_run (fun s => s.core.brew.slot) brewEvent booted_step
    slot_concurrentStep_brew (booted_boot it nvs taskResults)
    (congrArg BrewModule.slot (appMain_brew it nvs taskResults)) actions

theorem cycleHistory_consistent (it : NvsIterator) (nvs : Nvs) (taskResults : ℕ → Bool)
    (actions : List Action) :
    TaskLife.Consistent
      (Runs.run concurrentStep (Concurrent.boot it nvs taskResults) actions).core.cycle.slot
      (cycleHistory (Concurrent.boot it nvs taskResults) actions) :=
  TaskLife.consistent_run (fun s => s.core.cycle.slot) cycleEvent booted_step
    slot_concurrentStep_cycle (booted_boot it nvs taskResults)
    (congrArg CycleModule.slot (appMain_cycle it nvs taskResults)) actions

theorem brewEvent_ne_restart (s : Concurrent) (a : Action) (arg : BrewArg)
    (ha : a.isRestart = false) : brewEvent s a ≠ .restart arg := by
  rw [brewEvent.eq_def]
  split
  · split <;> simp
  · simp
  · split <;> simp
  · exact absurd ha (by simp [Action.isRestart])
  · simp

theorem cycleEvent_ne_restart (s : Concurrent) (a : Action) (kind : CycleKind)
    (ha : a.isRestart = false) : cycleEvent s a ≠ .restart kind := by
  rw [cycleEvent.eq_def]
  split
  · split <;> simp
  · simp
  · split <;> simp
  · exact absurd ha (by simp [Action.isRestart])
  · simp

/-- The task of a history that has not ended does so once it has taken some
number of steps more, unless a restart breaks it off. -/
def Ends {Arg : Type} (history : List Action → History Arg FamilyId) (isStep : Action → Bool)
    (actions : List Action) : Prop :=
  ∃ n, ∀ more, (∀ a ∈ more, a.isRestart = false) → n < more.countP isStep →
    (history actions).past.length < (history (actions ++ more)).past.length

theorem brewTask_ends (it : NvsIterator) (nvs : Nvs) (taskResults : ℕ → Bool)
    (actions : List Action)
    (hbusy : (Runs.run concurrentStep (Concurrent.boot it nvs taskResults)
      actions).core.brew.tasks ≠ []) :
    Ends (brewHistory (Concurrent.boot it nvs taskResults)) Action.isBrewStep actions := by
  let s := Runs.run concurrentStep (Concurrent.boot it nvs taskResults) actions
  have hbooted : Booted s := Runs.invariant booted_step (booted_boot it nvs taskResults) actions
  refine ⟨s.core.brew.rank, ?_⟩
  intro more hmore hticks
  have hgrows := TaskLife.past_grows (fun s => s.core.brew.slot) brewEvent
    (fun s => s.core.brew.rank) booted_step slot_concurrentStep_brew brewEvent_ne_restart
    rank_concurrentStep_brew hbooted (brewHistory_consistent it nvs taskResults actions)
    (by simpa [BrewModule.slot] using hbusy) hmore hticks
  rwa [brewHistory, brewHistory, TaskLife.historyOf_append]

theorem cycleTask_ends (it : NvsIterator) (nvs : Nvs) (taskResults : ℕ → Bool)
    (actions : List Action)
    (hbusy : (Runs.run concurrentStep (Concurrent.boot it nvs taskResults)
      actions).core.cycle.tasks ≠ []) :
    Ends (cycleHistory (Concurrent.boot it nvs taskResults)) Action.isCycleStep actions := by
  let s := Runs.run concurrentStep (Concurrent.boot it nvs taskResults) actions
  have hbooted : Booted s := Runs.invariant booted_step (booted_boot it nvs taskResults) actions
  refine ⟨s.core.cycle.rank, ?_⟩
  intro more hmore hticks
  have hgrows := TaskLife.past_grows (fun s => s.core.cycle.slot) cycleEvent
    (fun s => s.core.cycle.rank) booted_step slot_concurrentStep_cycle cycleEvent_ne_restart
    rank_concurrentStep_cycle hbooted (cycleHistory_consistent it nvs taskResults actions)
    (by simpa [CycleModule.slot] using hbusy) hmore hticks
  rwa [cycleHistory, cycleHistory, TaskLife.historyOf_append]

/-- In every interleaving each module has at most one task and its flags say
so, every task keeps to its own argument and applies its effects once unless it
is cancelled in time, and every task that gets its steps ends. -/
theorem lives_of_brews_and_cycles (it : NvsIterator) (nvs : Nvs) (taskResults : ℕ → Bool)
    (actions : List Action) :
    let boot := Concurrent.boot it nvs taskResults
    let c := (Runs.run concurrentStep boot actions).core
    TaskLife.Agrees c.brew.active c.brew.cancel c.brew.tasks.length
      (brewHistory boot actions) ∧
    TaskLife.Agrees c.cycle.active c.cycle.cancel c.cycle.tasks.length
      (cycleHistory boot actions) ∧
    (c.brew.tasks ≠ [] → Ends (brewHistory boot) Action.isBrewStep actions) ∧
    (c.cycle.tasks ≠ [] → Ends (cycleHistory boot) Action.isCycleStep actions) := by
  intro boot c
  have hbrew := (brewHistory_consistent it nvs taskResults actions).agrees
  have hcycle := (cycleHistory_consistent it nvs taskResults actions).agrees
  refine ⟨?_, ?_, brewTask_ends it nvs taskResults actions,
    cycleTask_ends it nvs taskResults actions⟩
  · simpa [BrewModule.slot] using hbrew
  · simpa [CycleModule.slot] using hcycle

/-- A brew that is cancelled before its first step ends all the same. -/
theorem cancelled_brew_ends :
    Ends (brewHistory (Concurrent.boot NvsIterator.storageOrder Nvs.empty fun _ => true))
      Action.isBrewStep
      [.op (.brewStart 0 false), .resume 0, .resume 0, .resume 0, .resume 0, .resume 0,
        .op .brewCancel] :=
  (lives_of_brews_and_cycles NvsIterator.storageOrder Nvs.empty (fun _ => true) _).2.2.1
    (by decide)

end Nivona
