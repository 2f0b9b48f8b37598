import NivonaEmulator.RegisterEvents
import NivonaEmulator.TaskLives

/-!
# Counter accounting

Over a run, every register but the gauges and their warnings goes up by one for
each completion that counts in it, and by nothing else.  The completions are
the effects the tasks have applied, so cancelled tasks count nowhere.
-/

namespace Nivona

open TaskLife (Slot)

/-- A completed brew or cycle, with the family that is current then. -/
inductive Completion
  | brew (arg : BrewArg) (family : FamilyId)
  | cycle (plan : CyclePlan) (family : FamilyId)

/-- The registers a completion counts in. -/
def Completion.counterIds : Completion → List Int16
  | .brew arg family => brewCounterIds (nivonaStatsCurrent family) arg.selector
  | .cycle plan family => cycleCounterIds (nivonaStatsCurrent family) plan

/-- The completion a step is, if any. -/
def completion (c : Core) (a : Action) : Option Completion :=
  match registerEvent c a with
  | .brewDone arg => some (.brew arg c.device.family)
  | .cycleDone plan => some (.cycle plan c.device.family)
  | _ => none

/-- The completions of a run, in order. -/
def completions (s : Concurrent) : List Action → List Completion
  | [] => []
  | a :: rest => (completion s.core a).toList ++ completions (concurrentStep s a) rest

/-- A client's write or erase of a register. -/
def Action.touches (id : Int16) : Action → Bool
  | .op (.setNum id' _) => id' == id
  | .op (.eraseNum id') => id' == id
  | _ => false

/-- A counter after one more; an absent one counts from 0. -/
def raise (v : Option Int32) : Option Int32 := some (v.getD 0 + 1)

/-- Brews among the completions. -/
def Completion.brew? : Completion → Option (BrewArg × FamilyId)
  | .brew arg family => some (arg, family)
  | .cycle .. => none

/-- Cycles among the completions. -/
def Completion.cycle? : Completion → Option (CycleKind × FamilyId)
  | .brew .. => none
  | .cycle plan family => some (plan.kind, family)

/-! ## One step -/

/-- A completion counts in distinct registers. -/
theorem nodup_counterIds {c : Core} (h : TaskData c) (a : Action) :
    ∀ d ∈ completion c a, d.counterIds.Nodup := by
  intro d hd
  rw [completion] at hd
  rcases registerEvent_cases c a with he | ⟨i, run, -, hpc, he⟩ | ⟨i, plan, -, hpc, he⟩ |
    ⟨id, v, -, he⟩ | ⟨id, -, he⟩ | ⟨it, -, he⟩
  · exact absurd hd (by simp [he])
  · obtain rfl : .brew run.arg c.device.family = d := by simpa [he] using hd
    exact nodup_brewCounterIds _ (h.brews _ (List.mem_of_getElem? hpc) run.arg rfl)
  · obtain rfl : .cycle plan c.device.family = d := by simpa [he] using hd
    simp only [Completion.counterIds, cycleCounterIds]
    split <;> simp
  · exact absurd hd (by simp [he])
  · exact absurd hd (by simp [he])
  · exact absurd hd (by simp [he])

/-- A step raises a counter once if it is a completion that counts in it, and
changes no counter otherwise. -/
theorem get_step {s : Concurrent} {a : Action} (hdata : TaskData s.core)
    (hrestart : a.isRestart = false)
    (hroom : (concurrentStep s a).core.device.numCount < NUM_CAP) {k : Int16} (hk : k ∉ GAUGE_IDS)
    (htouch : a.touches k = false) :
    (concurrentStep s a).core.device.num.get k =
      raise^[(completion s.core a).toList.countP fun d => k ∈ d.counterIds]
        (s.core.device.num.get k) := by
  obtain ⟨hnum, -⟩ := sameRegisters_step s a
  rw [numCount_congr hnum] at hroom
  rw [hnum, completion]
  rcases registerEvent_cases s.core a with he | ⟨i, run, -, hpc, he⟩ | ⟨i, plan, -, hpc, he⟩ |
    ⟨id, v, rfl, he⟩ | ⟨id, rfl, he⟩ | ⟨it, rfl, -⟩
  · rw [he]
    rfl
  · have hmem := List.mem_of_getElem? hpc
    have hnodup := nodup_brewCounterIds s.core.device.family (hdata.brews _ hmem run.arg rfl)
    rw [he] at hroom ⊢
    have hget := get_applyWearAfterBrew hk hnodup hroom
    simp only [RegisterEvent.apply, Option.toList_some, List.countP_singleton,
      Completion.counterIds]
    rw [hget, Core.stats]
    split <;> simp_all [raise, nivonaStoreGetNum]
  · have hmem := List.mem_of_getElem? hpc
    rw [he] at hroom ⊢
    have hget := get_cycleComplete (hdata.cycles _ hmem plan rfl) hk hroom
    simp only [RegisterEvent.apply, Option.toList_some, List.countP_singleton,
      Completion.counterIds]
    rw [hget, Core.stats]
    split <;> simp_all [raise, nivonaStoreGetNum]
  · have hne : k ≠ id := by
      rintro rfl
      simp [Action.touches] at htouch
    exact SlotTable.get_put_of_ne _ hne v
  · have hne : k ≠ id := by
      rintro rfl
      simp [Action.touches] at htouch
    exact SlotTable.get_remove_of_ne _ hne
  · exact absurd hrestart (by simp [Action.isRestart])

/-! ## Runs -/

/-- Every counter goes up by one for each completion that counts in it. -/
theorem get_run {s : Concurrent} (hdata : TaskData s.core ∧ CallData s.calls)
    {actions : List Action} (hsession : ∀ a ∈ actions, a.isRestart = false)
    (hroom : ∀ done, done <+: actions →
      (Runs.run concurrentStep s done).core.device.numCount < NUM_CAP)
    {k : Int16} (hk : k ∉ GAUGE_IDS) (htouch : ∀ a ∈ actions, a.touches k = false) :
    (Runs.run concurrentStep s actions).core.device.num.get k =
      raise^[(completions s actions).countP fun d => k ∈ d.counterIds]
        (s.core.device.num.get k) := by
  induction actions generalizing s with
  | nil => rfl
  | cons a rest ih =>
      have hstep := get_step hdata.1 (hsession a List.mem_cons_self)
        (hroom [a] (by simp)) hk (htouch a List.mem_cons_self)
      have hrest := ih (taskData_step s a hdata)
        (fun b hb => hsession b (List.mem_cons_of_mem a hb))
        (fun done hdone => hroom (a :: done) (by simpa using hdone))
        (fun b hb => htouch b (List.mem_cons_of_mem a hb))
      rw [Runs.run_cons, hrest, hstep, ← Function.iterate_add_apply, completions,
        List.countP_append, Nat.add_comm]

theorem nodup_completions {s : Concurrent} (hdata : TaskData s.core ∧ CallData s.calls)
    (actions : List Action) : ∀ d ∈ completions s actions, d.counterIds.Nodup := by
  induction actions generalizing s with
  | nil => simp [completions]
  | cons a rest ih =>
      intro d hd
      rcases List.mem_append.mp hd with hfirst | hrest
      · exact nodup_counterIds hdata.1 a d (by simpa using hfirst)
      · exact ih (taskData_step s a hdata) d hrest

/-! ## Completions are the effects of the tasks -/

theorem appliedBy_brewEvent (s : Concurrent) (a : Action) :
    s.core.brew.slot.appliedBy (brewEvent s a) =
      (completion s.core a).toList.filterMap Completion.brew? := by
  cases a with
  | resume i =>
      have hevent : s.core.brew.slot.appliedBy (brewEvent s (.resume i)) = [] := by
        simp only [brewEvent]
        split <;> rfl
      rw [hevent]
      rfl
  | op o =>
      cases o with
      | brewTask i =>
          rcases hpc : s.core.brew.tasks[i]? with _ | pc
          · simp [brewEvent, completion, registerEvent, hpc, Slot.appliedBy]
          · cases pc <;> simp [brewEvent, completion, registerEvent, hpc, Slot.appliedBy,
              BrewModule.slot, BrewPc.phase, Completion.brew?]
      | cycleTask i =>
          rcases hpc : s.core.cycle.tasks[i]? with _ | pc
          · simp [brewEvent, completion, registerEvent, hpc, Slot.appliedBy]
          · cases pc <;> simp [brewEvent, completion, registerEvent, hpc, Slot.appliedBy,
              Completion.brew?]
      | _ => rfl

theorem appliedBy_cycleEvent (s : Concurrent) (a : Action) :
    s.core.cycle.slot.appliedBy (cycleEvent s a) =
      (completion s.core a).toList.filterMap Completion.cycle? := by
  cases a with
  | resume i =>
      have hevent : s.core.cycle.slot.appliedBy (cycleEvent s (.resume i)) = [] := by
        simp only [cycleEvent]
        split <;> rfl
      rw [hevent]
      rfl
  | op o =>
      cases o with
      | brewTask i =>
          rcases hpc : s.core.brew.tasks[i]? with _ | pc
          · simp [cycleEvent, completion, registerEvent, hpc, Slot.appliedBy]
          · cases pc <;> simp [cycleEvent, completion, registerEvent, hpc, Slot.appliedBy,
              Completion.cycle?]
      | cycleTask i =>
          rcases hpc : s.core.cycle.tasks[i]? with _ | pc
          · simp [cycleEvent, completion, registerEvent, hpc, Slot.appliedBy]
          · cases pc <;> simp [cycleEvent, completion, registerEvent, hpc, Slot.appliedBy,
              CycleModule.slot, CyclePc.phase, Completion.cycle?]
      | _ => rfl

theorem effectsOf_brew (s : Concurrent) (actions : List Action) :
    TaskLife.effectsOf concurrentStep (fun s => s.core.brew.slot) brewEvent s actions =
      (completions s actions).filterMap Completion.brew? := by
  induction actions generalizing s with
  | nil => rfl
  | cons a rest ih =>
      rw [TaskLife.effectsOf, completions, List.filterMap_append, ih, appliedBy_brewEvent]

theorem effectsOf_cycle (s : Concurrent) (actions : List Action) :
    TaskLife.effectsOf concurrentStep (fun s => s.core.cycle.slot) cycleEvent s actions =
      (completions s actions).filterMap Completion.cycle? := by
  induction actions generalizing s with
  | nil => rfl
  | cons a rest ih =>
      rw [TaskLife.effectsOf, completions, List.filterMap_append, ih, appliedBy_cycleEvent]

section

variable (it : NvsIterator) (nvs : Nvs) (taskResults : ℕ → Bool) (before : List Action)
  {actions : List Action} (hsession : ∀ a ∈ actions, a.isRestart = false)

include hsession

/-- The brews completed in a session are the effects its brew tasks apply. -/
theorem applied_brewHistory :
    (brewHistory (Concurrent.boot it nvs taskResults) (before ++ actions)).applied =
      (brewHistory (Concurrent.boot it nvs taskResults) before).applied ++
        (completions (Runs.run concurrentStep (Concurrent.boot it nvs taskResults) before)
          actions).filterMap Completion.brew? := by
  have hbooted := Runs.invariant booted_step (booted_boot it nvs taskResults) before
  have happlied := TaskLife.applied_run (fun s : Concurrent => s.core.brew.slot) brewEvent
    booted_step slot_concurrentStep_brew brewEvent_ne_restart hbooted
    (brewHistory_consistent it nvs taskResults before) hsession
  rw [effectsOf_brew] at happlied
  rwa [brewHistory, TaskLife.historyOf_append]

/-- So for cycles. -/
theorem applied_cycleHistory :
    (cycleHistory (Concurrent.boot it nvs taskResults) (before ++ actions)).applied =
      (cycleHistory (Concurrent.boot it nvs taskResults) before).applied ++
        (completions (Runs.run concurrentStep (Concurrent.boot it nvs taskResults) before)
          actions).filterMap Completion.cycle? := by
  have hbooted := Runs.invariant booted_step (booted_boot it nvs taskResults) before
  have happlied := TaskLife.applied_run (fun s : Concurrent => s.core.cycle.slot) cycleEvent
    booted_step slot_concurrentStep_cycle cycleEvent_ne_restart hbooted
    (cycleHistory_consistent it nvs taskResults before) hsession
  rw [effectsOf_cycle] at happlied
  rwa [cycleHistory, TaskLife.historyOf_append]

end

/-! ## The result -/

/-- In a session in which the table always has a slot left, each register that
no client touches, gauges and warnings apart, goes up by exactly one for each
completion that counts in it and is written by nothing else.  Each completion
counts in distinct registers.  The completions are the effects that the tasks
of the session apply, and a task that was cancelled in time applies none. -/
theorem counters_account (it : NvsIterator) (nvs : Nvs) (taskResults : ℕ → Bool)
    (before actions : List Action) (hsession : ∀ a ∈ actions, a.isRestart = false)
    (hroom : ∀ done, done <+: actions →
      (Runs.run concurrentStep (Concurrent.boot it nvs taskResults)
        (before ++ done)).core.device.numCount < NUM_CAP) :
    let boot := Concurrent.boot it nvs taskResults
    let s := Runs.run concurrentStep boot before
    let done := completions s actions
    let brews := brewHistory boot (before ++ actions)
    let cycles := cycleHistory boot (before ++ actions)
    (∀ k ∉ GAUGE_IDS, (∀ a ∈ actions, a.touches k = false) →
      (Runs.run concurrentStep boot (before ++ actions)).core.device.num.get k =
        raise^[done.countP fun d => k ∈ d.counterIds] (s.core.device.num.get k)) ∧
    (∀ d ∈ done, d.counterIds.Nodup) ∧
    brews.applied = (brewHistory boot before).applied ++ done.filterMap Completion.brew? ∧
    cycles.applied = (cycleHistory boot before).applied ++ done.filterMap Completion.cycle? ∧
    (∀ l ∈ brews.lives, l.cancelled = true → l.applied = []) ∧
    ∀ l ∈ cycles.lives, l.cancelled = true → l.applied = [] := by
  intro boot s done brews cycles
  have hdata := taskData_run it nvs taskResults before
  have hbrews := (brewHistory_consistent it nvs taskResults (before ++ actions)).agrees
  have hcycles := (cycleHistory_consistent it nvs taskResults (before ++ actions)).agrees
  refine ⟨?_, nodup_completions hdata actions, applied_brewHistory it nvs taskResults before
    hsession, applied_cycleHistory it nvs taskResults before hsession,
    fun l hl => (hbrews.sound l hl).notCancelled, fun l hl => (hcycles.sound l hl).notCancelled⟩
  intro k hk htouch
  rw [Runs.run_append]
  apply get_run hdata hsession _ hk htouch
  intro done hdone
  have hlt := hroom done hdone
  rwa [Runs.run_append] at hlt

/-- Hot water on the 8000 family, up to the last step before the counters. -/
def waterBrew : List Action :=
  .op (.brewStart 7 false) :: List.replicate 5 (.resume 0) ++
    List.replicate 36 (.op (.brewTask 0))

/-- With the next step recipe, total and app counter of a new machine are at 1. -/
theorem counters_account_waterBrew :
    let c := (Runs.run concurrentStep
      (Concurrent.boot NvsIterator.storageOrder Nvs.empty fun _ => true)
      (waterBrew ++ [.op (.brewTask 0)])).core
    c.device.num.get 207 = some 1 ∧ c.device.num.get 213 = some 1 ∧
      c.device.num.get 221 = some 1 := by
  have hroom : ∀ done, done <+: [Action.op (.brewTask 0)] → (Runs.run concurrentStep
      (Concurrent.boot NvsIterator.storageOrder Nvs.empty fun _ => true)
      (waterBrew ++ done)).core.device.numCount < NUM_CAP := by
    intro done hdone
    rcases List.prefix_cons_iff.mp hdone with rfl | ⟨rest, rfl, hrest⟩
    · decide +kernel
    · obtain rfl := List.prefix_nil.mp hrest
      decide +kernel
  have h := (counters_account NvsIterator.storageOrder Nvs.empty (fun _ => true) waterBrew
    [.op (.brewTask 0)] (by decide) hroom).1
  exact ⟨(h 207 (by decide) (by decide)).trans (by decide +kernel),
    (h 213 (by decide) (by decide)).trans (by decide +kernel),
    (h 221 (by decide) (by decide)).trans (by decide +kernel)⟩

end Nivona
