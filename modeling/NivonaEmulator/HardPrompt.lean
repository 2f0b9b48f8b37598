import NivonaEmulator.MachineRun

/-!
# No hard prompt is lost

Every operation that touches tanks or parts re-evaluates the prompt, and a
brew or a cycle re-evaluates it at its end.  A family switch does not: the
console resets the prompt, the touch screen keeps the old one.  Between runs
the prompt is the one that is called for as long as each switch selects a family for
which that makes no difference.
-/

namespace Nivona

/-- The prompt is the one called for, or a soft one while none is called for. -/
def PromptOk (c : Core) : Prop :=
  c.status.manipulation = c.hardPrompt ∨
    nivonaMaintCurrentIsSoft c = true ∧ c.hardPrompt = MANIP_NONE

instance (c : Core) : Decidable (PromptOk c) :=
  inferInstanceAs (Decidable (_ ∨ _))

/-- No task is still going to re-evaluate the prompt. -/
def Settled (c : Core) : Prop :=
  (∀ pc ∈ c.brew.tasks, pc = .cleanup) ∧ ∀ pc ∈ c.cycle.tasks, pc = .cleanup

instance (c : Core) : Decidable (Settled c) :=
  inferInstanceAs (Decidable (_ ∧ _))

/-- The hard prompt on another family. -/
def Core.hardPromptOn (c : Core) (f : FamilyId) : UInt8 :=
  evaluate c.device (nivonaMaintFamilyMask (familyRow f).key)

/-! ## Evaluating the prompt -/

/-- A hard prompt is not a soft one. -/
theorem evaluate_hard (d : Device) (mask : UInt32) :
    evaluate d mask ≠ MANIP_FLUSH_REQUIRED ∧ evaluate d mask ≠ MANIP_MOVE_CUP := by
  rw [evaluate]
  split_ifs <;> decide

theorem evaluate_congr {d d' : Device} (hlevels : d'.levels = d.levels)
    (hparts : d'.parts = d.parts) (mask : UInt32) : evaluate d' mask = evaluate d mask := by
  cases d
  cases d'
  obtain rfl := hlevels
  obtain rfl := hparts
  rfl

/-- The prompt depends on levels, parts and family alone. -/
theorem hardPrompt_congr {c c' : Core} (hlevels : c'.device.levels = c.device.levels)
    (hparts : c'.device.parts = c.device.parts)
    (hfamily : c'.device.family = c.device.family) : c'.hardPrompt = c.hardPrompt := by
  rw [Core.hardPrompt, Core.hardPrompt, evaluate_congr hlevels hparts, Core.family, Core.family,
    nivonaFamilyCurrent, nivonaFamilyCurrent, hfamily]

theorem PromptOk.congr {c c' : Core} (h : PromptOk c)
    (hmanip : c'.status.manipulation = c.status.manipulation)
    (hlevels : c'.device.levels = c.device.levels) (hparts : c'.device.parts = c.device.parts)
    (hfamily : c'.device.family = c.device.family) : PromptOk c' := by
  rw [PromptOk, nivonaMaintCurrentIsSoft] at *
  rwa [hmanip, hardPrompt_congr hlevels hparts hfamily]

theorem promptOk_reevaluate (c : Core) : PromptOk (nivonaMaintReevaluate c) :=
  .inl rfl

theorem promptOk_coldStart (c : Core) : PromptOk (nivonaMaintColdStart c) := by
  simp only [nivonaMaintColdStart]
  split
  · rename_i hnone
    exact .inr ⟨rfl, hnone⟩
  · exact promptOk_reevaluate c

theorem promptOk_handleConfirm {c : Core} (h : PromptOk c) :
    PromptOk (nivonaMaintHandleConfirm c).1 := by
  rw [nivonaMaintHandleConfirm]
  split
  · exact h
  · split
    · exact promptOk_reevaluate _
    · exact promptOk_reevaluate c

/-! ## Family switches -/

/-- The console switch is harmless exactly when nothing is called for on the
new family. -/
theorem promptOk_cmdFamily_iff {c : Core} {key : String} {f : FamilyId}
    (hfind : nivonaFamilyFind key = some f) :
    PromptOk (cmdFamily c key) ↔ c.hardPromptOn f = MANIP_NONE := by
  have hmanip : (cmdFamily c key).status.manipulation = MANIP_NONE := by
    simp [cmdFamily, hfind, nivonaFsmResetToReady, Status.ready]
  have hprompt : (cmdFamily c key).hardPrompt = c.hardPromptOn f := by
    simp only [cmdFamily, hfind, Core.onDevice, nivonaFamilySet]
    rfl
  have hsoft : nivonaMaintCurrentIsSoft (cmdFamily c key) = false := by
    rw [nivonaMaintCurrentIsSoft, hmanip]
    rfl
  rw [PromptOk, hmanip, hprompt, hsoft]
  exact ⟨fun h => h.elim Eq.symm fun h => absurd h.1 Bool.false_ne_true, fun h => .inl h.symm⟩

/-- The touch-screen switch is harmless exactly when the new family calls for
the same prompt. -/
theorem promptOk_onFamilySelect_iff {c : Core} {key : String} {f : FamilyId}
    (hfind : nivonaFamilyFind key = some f) (hok : PromptOk c) :
    PromptOk (onFamilySelect c key) ↔ c.hardPromptOn f = c.hardPrompt := by
  have hmanip : (onFamilySelect c key).status.manipulation = c.status.manipulation := rfl
  have hprompt : (onFamilySelect c key).hardPrompt = c.hardPromptOn f := by
    simp only [onFamilySelect, Core.onDevice, nivonaFamilySet, hfind]
    rfl
  have hsoft : nivonaMaintCurrentIsSoft (onFamilySelect c key) = nivonaMaintCurrentIsSoft c :=
    rfl
  rw [PromptOk, hmanip, hprompt, hsoft]
  constructor
  · rintro (hnew | ⟨hissoft, hnew⟩)
    · rcases hok with hold | ⟨hissoft, -⟩
      · exact hnew.symm.trans hold
      · -- a soft prompt is no hard one
        have hhard := evaluate_hard c.device (nivonaMaintFamilyMask (familyRow f).key)
        rw [nivonaMaintCurrentIsSoft, hnew] at hissoft
        simp [Core.hardPromptOn, hhard.1, hhard.2] at hissoft
    · rcases hok with hold | ⟨-, hold⟩
      · have hhard := evaluate_hard c.device (nivonaMaintFamilyMask c.family.key)
        rw [nivonaMaintCurrentIsSoft, hold] at hissoft
        simp [Core.hardPrompt, hhard.1, hhard.2] at hissoft
      · exact hnew.trans hold.symm
  · intro hsame
    rwa [hsame]

/-- A family switch in a settled state selects a family for which the prompt
needs no update. -/
def SwitchSafe (c : Core) : Op → Prop
  | .familyCli key =>
      Settled c → ∀ f ∈ nivonaFamilyFind key, c.hardPromptOn f = MANIP_NONE
  | .familyUi key =>
      Settled c → ∀ f ∈ nivonaFamilyFind key, c.hardPromptOn f = c.hardPrompt
  | _ => True

instance (c : Core) : (op : Op) → Decidable (SwitchSafe c op)
  | .familyCli key => inferInstanceAs (Decidable
      (Settled c → ∀ f ∈ nivonaFamilyFind key, c.hardPromptOn f = MANIP_NONE))
  | .familyUi key => inferInstanceAs (Decidable
      (Settled c → ∀ f ∈ nivonaFamilyFind key, c.hardPromptOn f = c.hardPrompt))
  | .reboot _ | .brewStart .. | .cycleStart _ | .brewCancel | .cycleCancel | .confirm
  | .brewTask _ | .cycleTask _ | .tank .. | .fix _ | .part .. | .refillWater | .refillBeans
  | .emptyTray | .setNum .. | .setAlpha .. | .eraseNum _ => inferInstanceAs (Decidable True)

/-! ## The invariant -/

/-- A module has at most one task, and none while its flag is clear. -/
def OneTask {Pc : Type} (active : Bool) (tasks : List Pc) : Prop :=
  tasks.length ≤ 1 ∧ (active = false → tasks = [])

section

variable {Pc : Type} {active : Bool} {tasks : List Pc} {i : ℕ} {pc : Pc}

theorem OneTask.eq_singleton (h : OneTask active tasks) (hpc : tasks[i]? = some pc) :
    i = 0 ∧ tasks = [pc] := by
  obtain ⟨hlen, -⟩ := h
  rcases tasks with _ | ⟨x, _ | ⟨y, rest⟩⟩
  · simp at hpc
  · cases i with
    | zero => simpa using hpc
    | succ i => simp at hpc
  · simp at hlen

theorem OneTask.active_of_mem (h : OneTask active tasks) (hpc : pc ∈ tasks) : active = true := by
  by_contra hidle
  rw [h.2 (by simpa using hidle)] at hpc
  simp at hpc

theorem OneTask.created (h : OneTask active tasks) (hidle : active = false) :
    OneTask true (tasks ++ [pc]) := by
  rw [OneTask, h.2 hidle]
  simp

end

/-- Once the tasks have re-evaluated the prompt, it is the one called for. -/
structure PromptInv (c : Core) : Prop where
  brewTask : OneTask c.brew.active c.brew.tasks
  cycleTask : OneTask c.cycle.active c.cycle.tasks
  prompt : Settled c → PromptOk c

theorem promptInv_appMain (it : NvsIterator) (nvs : Nvs) (taskResults : ℕ → Bool) :
    PromptInv (appMain it nvs taskResults) where
  brewTask := by
    rw [appMain_brew]
    exact ⟨by simp [Core.powerOn], fun _ => rfl⟩
  cycleTask := by
    rw [appMain_cycle]
    exact ⟨by simp [Core.powerOn], fun _ => rfl⟩
  prompt := fun _ => promptOk_coldStart _

/-- An operation that leaves tasks and flags alone keeps the invariant when it
keeps the prompt. -/
theorem PromptInv.of_modules {c c' : Core} (h : PromptInv c)
    (hbrew : c'.brew.active = c.brew.active ∧ c'.brew.tasks = c.brew.tasks)
    (hcycle : c'.cycle.active = c.cycle.active ∧ c'.cycle.tasks = c.cycle.tasks)
    (hprompt : Settled c → PromptOk c → PromptOk c') : PromptInv c' where
  brewTask := by
    rw [hbrew.1, hbrew.2]
    exact h.brewTask
  cycleTask := by
    rw [hcycle.1, hcycle.2]
    exact h.cycleTask
  prompt := fun hsettled => by
    rw [Settled, hbrew.2, hcycle.2] at hsettled
    exact hprompt hsettled (h.prompt hsettled)

/-! ## Tasks -/

/-- A step of the brew task. -/
theorem promptInv_brewTask {c : Core} (h : PromptInv c) (i : ℕ) :
    PromptInv (brewTask c i).1 := by
  rcases hpc : c.brew.tasks[i]? with _ | pc
  · simpa [brewTask, hpc] using h
  obtain ⟨rfl, hone⟩ := h.brewTask.eq_singleton hpc
  have hactive : c.brew.active = true := h.brewTask.active_of_mem (List.mem_of_getElem? hpc)
  by_cases hclean : pc = .cleanup
  · subst hclean
    have hcore : (brewTask c 0).1 = { c with
        brew := { c.brew with active := false, cancel := false, tasks := [] } } := by
      simp [brewTask, brewTaskStep, hone]
    rw [hcore]
    refine ⟨⟨by simp, fun _ => rfl⟩, h.cycleTask, ?_⟩
    intro hsettled
    exact (h.prompt ⟨by simp [hone], hsettled.2⟩).congr rfl rfl rfl rfl
  · obtain ⟨pc', hnext, hmove⟩ := brewTaskStep_next c pc hclean
    have hbrew := brewTaskStep_brew c pc
    rw [if_neg hclean] at hbrew
    have hcore : (brewTask c 0).1 = { (brewTaskStep c pc).core with
        brew := { c.brew with tasks := [pc'] } } := by
      simp [brewTask, hone, hnext, hbrew]
    rw [hcore]
    refine ⟨⟨by simp, fun hidle => absurd (hactive.symm.trans hidle) (by simp)⟩, ?_, ?_⟩
    · rw [brewTaskStep_cycle]
      exact h.cycleTask
    · intro hsettled
      obtain rfl := hsettled.1 pc' (by simp)
      obtain rfl := hmove.eq_review
      exact (promptOk_reevaluate c).congr rfl rfl rfl rfl

/-- A step of the cycle task. -/
theorem promptInv_cycleTask {c : Core} (h : PromptInv c) (i : ℕ) :
    PromptInv (cycleTask c i).1 := by
  rcases hpc : c.cycle.tasks[i]? with _ | pc
  · simpa [cycleTask, hpc] using h
  obtain ⟨rfl, hone⟩ := h.cycleTask.eq_singleton hpc
  have hactive : c.cycle.active = true := h.cycleTask.active_of_mem (List.mem_of_getElem? hpc)
  by_cases hclean : pc = .cleanup
  · subst hclean
    have hcore : (cycleTask c 0).1 = { c with
        cycle := { c.cycle with active := false, cancel := false, tasks := [] } } := by
      simp [cycleTask, cycleTaskStep, hone]
    rw [hcore]
    refine ⟨h.brewTask, ⟨by simp, fun _ => rfl⟩, ?_⟩
    intro hsettled
    exact (h.prompt ⟨hsettled.1, by simp [hone]⟩).congr rfl rfl rfl rfl
  · obtain ⟨pc', hnext, hmove⟩ := cycleTaskStep_next c pc hclean
    have hcycle := cycleTaskStep_cycle c pc
    rw [if_neg hclean] at hcycle
    have hcore : (cycleTask c 0).1 = { (cycleTaskStep c pc).core with
        cycle := { c.cycle with tasks := [pc'] } } := by
      simp [cycleTask, hone, hnext, hcycle]
    rw [hcore]
    refine ⟨?_, ⟨by simp, fun hidle => absurd (hactive.symm.trans hidle) (by simp)⟩, ?_⟩
    · rw [cycleTaskStep_brew]
      exact h.brewTask
    · intro hsettled
      obtain rfl := hsettled.2 pc' (by simp)
      obtain rfl := hmove.eq_review
      exact (promptOk_reevaluate c).congr rfl rfl rfl rfl

/-! ## Starting a task -/

theorem promptInv_brewStart {c : Core} (h : PromptInv c) (processValue : Int16)
    (twoCups : Bool) : PromptInv (nivonaBrewStart c processValue twoCups).1 := by
  rcases nivonaBrewStart_cases c processValue twoCups with he | ⟨-, -, sel, recipe, he⟩
  · rwa [he]
  rw [he]
  rcases brewCommit_cases c sel recipe twoCups with
    ⟨-, he⟩ | ⟨hidle, -, brew, he, -, hoff, htasks⟩ | ⟨hidle, -, brew, he, -, hon, htasks⟩
  · rwa [he]
  · rw [he]
    exact h.of_modules ⟨hoff.trans hidle.symm, htasks⟩ ⟨rfl, rfl⟩
      fun _ hok => hok.congr rfl rfl rfl rfl
  · rw [he]
    refine ⟨?_, h.cycleTask, ?_⟩
    · rw [hon, htasks]
      exact h.brewTask.created hidle
    · intro hsettled
      exact absurd (hsettled.1 .entry (by simp [htasks])) (by simp)

theorem promptInv_cycleStart {c : Core} (h : PromptInv c) (kind : CycleKind) :
    PromptInv (nivonaMaintCycleStart c kind).1 := by
  rcases nivonaMaintCycleStart_cases c kind with he | ⟨-, he⟩
  · rwa [he]
  rw [he]
  rcases cycleCommit_cases c kind with
    ⟨-, he⟩ | ⟨hidle, -, cycle, he, -, hoff, htasks⟩ | ⟨hidle, -, cycle, he, -, hon, htasks⟩
  · rwa [he]
  · rw [he]
    exact h.of_modules ⟨rfl, rfl⟩ ⟨hoff.trans hidle.symm, htasks⟩
      fun _ hok => hok.congr rfl rfl rfl rfl
  · rw [he]
    refine ⟨h.brewTask, ?_, ?_⟩
    · rw [hon, htasks]
      exact h.cycleTask.created hidle
    · intro hsettled
      exact absurd (hsettled.2 .entry (by simp [htasks])) (by simp)

/-! ## Steps -/

/-- The operations that run no task keep the prompt up to date. -/
theorem promptOk_quiet {c : Core} {op : Op} (hquiet : op.quiet = true) (hsafe : SwitchSafe c op)
    (hsettled : Settled c) (hok : PromptOk c) : PromptOk (coreStep c op) := by
  rcases coreStep_quiet_cases c hquiet with
    he | ⟨d, he⟩ | ⟨write, he⟩ | rfl | ⟨key, rfl⟩ | ⟨key, rfl⟩
  · rwa [he]
  · rw [he]
    exact promptOk_reevaluate _
  · rw [he]
    exact hok.congr rfl rfl rfl rfl
  · exact promptOk_handleConfirm hok
  · rcases hfind : nivonaFamilyFind key with _ | f
    · simpa [coreStep, cmdFamily, hfind] using hok
    · exact (promptOk_cmdFamily_iff hfind).mpr (hsafe hsettled f hfind)
  · rcases hfind : nivonaFamilyFind key with _ | f
    · simpa [coreStep, onFamilySelect, Core.onDevice, nivonaFamilySet, hfind] using hok
    · exact (promptOk_onFamilySelect_iff hfind hok).mpr (hsafe hsettled f hfind)

/-- One operation preserves the invariant. -/
theorem promptInv_step (c : Core) (op : Op) (h : PromptInv c) (hsafe : SwitchSafe c op) :
    PromptInv (coreStep c op) := by
  by_cases hquiet : op.quiet = true
  · obtain ⟨hbrew, hcycle⟩ := coreStep_quiet c hquiet
    exact h.of_modules (by simp [hbrew]) (by simp [hcycle]) (promptOk_quiet hquiet hsafe)
  · cases op with
    | reboot it => exact promptInv_appMain it c.device.nvs c.taskResults
    | brewStart processValue twoCups => exact promptInv_brewStart h processValue twoCups
    | cycleStart kind => exact promptInv_cycleStart h kind
    | brewCancel =>
        obtain ⟨cancel, he⟩ := nivonaBrewCancel_frame c
        rw [coreStep, he]
        exact h.of_modules ⟨rfl, rfl⟩ ⟨rfl, rfl⟩ fun _ hok => hok.congr rfl rfl rfl rfl
    | cycleCancel =>
        obtain ⟨cancel, he⟩ := nivonaMaintCycleCancel_frame c
        rw [coreStep, he]
        exact h.of_modules ⟨rfl, rfl⟩ ⟨rfl, rfl⟩ fun _ hok => hok.congr rfl rfl rfl rfl
    | brewTask i => exact promptInv_brewTask h i
    | cycleTask i => exact promptInv_cycleTask h i
    | _ => exact absurd rfl hquiet

/-- Between tasks nothing is going to re-evaluate the prompt. -/
theorem PromptInv.settled_of_idle {c : Core} (h : PromptInv c) (hbrew : c.brew.active = false)
    (hcycle : c.cycle.active = false) : Settled c := by
  rw [Settled, h.brewTask.2 hbrew, h.cycleTask.2 hcycle]
  exact ⟨by simp, by simp⟩

/-! ## The result -/

/-- A part the family needs is missing, the water is low or the tray is full. -/
def Core.needsAttention (c : Core) : Prop :=
  c.device.parts .brewUnit = false ∨ c.device.parts .trays = false ∨
    (c.family.hasPowderLid = true ∧ c.device.parts .powderLid = false) ∨
    c.device.levels .water < 10 ∨ 90 < c.device.levels .tray

theorem hardPrompt_eq_none_iff (c : Core) : c.hardPrompt = MANIP_NONE ↔ ¬c.needsAttention := by
  have h := evaluate_eq_none_iff c.device c.device.family
  rw [Core.hardPrompt, Core.family, nivonaFamilyCurrent, h, Core.needsAttention, Core.family,
    nivonaFamilyCurrent, NIVONA_THR_WATER_LOW, NIVONA_THR_TRAY_FULL]
  simp only [not_or, not_and, UInt8.not_lt, Bool.not_eq_false]

/-- With the right prompt a machine that needs attention does not brew. -/
theorem nivonaBrewStart_of_needsAttention {c : Core} (hok : PromptOk c) (h : c.needsAttention)
    (processValue : Int16) (twoCups : Bool) :
    nivonaBrewStart c processValue twoCups = (c, false) := by
  have hprompt : c.hardPrompt ≠ MANIP_NONE := fun hnone => (hardPrompt_eq_none_iff c).mp hnone h
  have hhard := evaluate_hard c.device (nivonaMaintFamilyMask c.family.key)
  rcases hok with hmanip | ⟨-, hnone⟩
  · rcases nivonaBrewStart_cases c processValue twoCups with he | ⟨hrefuses, -⟩
    · exact he
    · rw [brewPromptRefuses, nivonaMaintCurrentIsSoft, hmanip] at hrefuses
      simp [hprompt] at hrefuses
      simp [Core.hardPrompt, hhard.1, hhard.2] at hrefuses
  · exact absurd hnone hprompt

/-- In a run in which every family switch is safe, an idle machine shows the
prompt that is called for, and refuses to brew when it needs attention. -/
theorem promptOk_of_switchSafe (it : NvsIterator) (nvs : Nvs) (taskResults : ℕ → Bool)
    (ops : List Op)
    (hrun : Runs.Guarded coreStep SwitchSafe (appMain it nvs taskResults) ops) :
    ∀ before, before <+: ops → ∀ c, c = Runs.run coreStep (appMain it nvs taskResults) before →
      c.brew.active = false → c.cycle.active = false →
        PromptOk c ∧ (c.needsAttention → ∀ processValue twoCups,
          nivonaBrewStart c processValue twoCups = (c, false)) := by
  rintro before ⟨rest, rfl⟩ c hc hbrew hcycle
  have hinv := hrun.prefix_of.invariant promptInv_step (promptInv_appMain it nvs taskResults)
  rw [← hc] at hinv
  have hok : PromptOk c := hinv.prompt (hinv.settled_of_idle hbrew hcycle)
  exact ⟨hok, fun hneeds => nivonaBrewStart_of_needsAttention hok hneeds⟩

/-- A low tank is still called for after the touch screen selects another
family, and the machine refuses to brew. -/
theorem promptOk_low_water_familyUi :
    let c := Runs.run coreStep (appMain NvsIterator.storageOrder Nvs.empty fun _ => true)
      [.tank "water" 5, .familyUi "700"]
    PromptOk c ∧ ∀ processValue twoCups, nivonaBrewStart c processValue twoCups = (c, false) :=
  have h := promptOk_of_switchSafe NvsIterator.storageOrder Nvs.empty (fun _ => true)
    [.tank "water" 5, .familyUi "700"] (by decide) _ (List.prefix_refl _) _ rfl
    (by decide) (by decide)
  ⟨h.1, h.2 (.inr (.inr (.inr (.inl (by decide)))))⟩

/-- The console switch drops the prompt of an empty tank, and the machine brews. -/
theorem brew_on_empty_tank_after_cmdFamily :
    let c := Runs.run coreStep (appMain NvsIterator.storageOrder Nvs.empty fun _ => true)
      [.tank "water" 0, .familyCli "8000"]
    c.brew.active = false ∧ c.cycle.active = false ∧ c.device.levels .water = 0 ∧
      ¬PromptOk c ∧ (nivonaBrewStart c 0 false).2 = true := by
  decide

/-! ## On the whole machine -/

/-- Requests switch no family. -/
theorem switchSafe_of_ofRequest (c : Core) (op : Op) (h : op.ofRequest = true) :
    SwitchSafe c op := by
  cases op with
  | familyCli key => exact absurd h Bool.false_ne_true
  | familyUi key => exact absurd h Bool.false_ne_true
  | _ => trivial

/-- No session and no stream of bytes breaks the invariant: only the operator's
family switches have to be safe. -/
theorem promptInv_machine (env : Environment) (nvs : Nvs) (events : List Event)
    (hrun : Runs.Guarded machineStep (EventGuard SwitchSafe) (Machine.boot env nvs) events) :
    PromptInv (Runs.run machineStep (Machine.boot env nvs) events).core :=
  (simulates_core switchSafe_of_ofRequest).invariant promptInv_step hrun
    (promptInv_appMain env.iterator nvs env.taskResults)

/-- Between tasks, a brew request to a machine that needs attention is answered
by a NACK and changes nothing else. -/
theorem handleHe_of_needsAttention {m : Machine} (hinv : PromptInv m.core)
    (hbrew : m.core.brew.active = false) (hcycle : m.core.cycle.active = false)
    (h : m.core.needsAttention) (payload : List UInt8) : handleHe m payload = sendNack m := by
  have hok : PromptOk m.core := hinv.prompt (hinv.settled_of_idle hbrew hcycle)
  simp only [handleHe]
  split
  · rfl
  · split
    · rfl
    · rw [nivonaBrewStart_of_needsAttention hok h]
      rfl

end Nivona
