import NivonaEmulator.Exclusion

/-!
# Only prompts the family can raise

The allowlist of the current family is consulted where the prompt is
re-evaluated.  The first step of a cycle raises the prompt of its plan without
it, and the prompt of the intensive clean belongs to the powder lid.
-/

namespace Nivona

/-- The family can raise the prompt. -/
def FamilyRaises (f : FamilyId) (m : UInt8) : Prop :=
  nivonaMaintFamilyMask (familyRow f).key &&& manipBit m ≠ 0

instance (f : FamilyId) (m : UInt8) : Decidable (FamilyRaises f m) :=
  inferInstanceAs (Decidable (_ ≠ _))

/-- The prompt of the status is one the current family can raise. -/
def PromptAllowed (c : Core) : Prop :=
  FamilyRaises c.device.family c.status.manipulation

instance (c : Core) : Decidable (PromptAllowed c) :=
  inferInstanceAs (Decidable (FamilyRaises _ _))

/-! ## The writers of the prompt -/

theorem familyRaises_none (f : FamilyId) : FamilyRaises f MANIP_NONE := by
  revert f
  decide

theorem familyRaises_flush (f : FamilyId) : FamilyRaises f MANIP_FLUSH_REQUIRED := by
  revert f
  decide

/-- What is evaluated is on the allowlist. -/
theorem familyRaises_evaluate (d : Device) (f : FamilyId) :
    FamilyRaises f (evaluate d (nivonaMaintFamilyMask (familyRow f).key)) := by
  rw [evaluate]
  split_ifs with hbu htrays hlid hwater htray
  · exact bne_iff_ne.mp (Bool.and_eq_true_iff.mp hbu).2
  · exact bne_iff_ne.mp (Bool.and_eq_true_iff.mp htrays).2
  · exact bne_iff_ne.mp (Bool.and_eq_true_iff.mp hlid).2
  · exact bne_iff_ne.mp (Bool.and_eq_true_iff.mp hwater).2
  · exact bne_iff_ne.mp (Bool.and_eq_true_iff.mp htray).2
  · exact familyRaises_none f

/-- Of the plans, only the intensive clean raises a prompt that some families
lack. -/
theorem familyRaises_prepManip {k : CycleKind} {plan : CyclePlan} (hplan : findPlan k = some plan)
    (f : FamilyId) : FamilyRaises f plan.prepManip ↔
      (k = .intensiveClean → (familyRow f).hasPowderLid = true) := by
  have hall : ∀ k : CycleKind, ∀ f : FamilyId, ∀ plan ∈ findPlan k,
      (FamilyRaises f plan.prepManip ↔
        (k = .intensiveClean → (familyRow f).hasPowderLid = true)) := by
    intro k
    cases k <;> decide
  exact hall k f plan hplan

theorem promptAllowed_reevaluate (c : Core) : PromptAllowed (nivonaMaintReevaluate c) :=
  familyRaises_evaluate c.device c.device.family

theorem promptAllowed_coldStart (c : Core) : PromptAllowed (nivonaMaintColdStart c) := by
  simp only [nivonaMaintColdStart]
  split
  · exact familyRaises_flush c.device.family
  · exact promptAllowed_reevaluate c

theorem promptAllowed_handleConfirm {c : Core} (h : PromptAllowed c) :
    PromptAllowed (nivonaMaintHandleConfirm c).1 := by
  rw [nivonaMaintHandleConfirm]
  split
  · exact h
  · split
    · exact promptAllowed_reevaluate _
    · exact promptAllowed_reevaluate c

/-! ## Tasks -/

/-- A step that keeps prompt and family keeps the prompt allowed. -/
theorem PromptAllowed.congr {c c' : Core} (h : PromptAllowed c)
    (hmanip : c'.status.manipulation = c.status.manipulation)
    (hfamily : c'.device.family = c.device.family) : PromptAllowed c' := by
  rw [PromptAllowed, hmanip, hfamily]
  exact h

/-- A brew writes no prompt but none and the one evaluated. -/
theorem promptAllowed_brewTaskStep {c : Core} (h : PromptAllowed c) (pc : BrewPc) :
    PromptAllowed (brewTaskStep c pc).core := by
  cases pc with
  | entry => exact familyRaises_none c.device.family
  | stage run i elapsedMs =>
      simp only [brewTaskStep]
      split
      · exact h.congr rfl (consumeStage_frame c.device _).1
      · exact h
  | tick run i stageElapsed elapsedMs =>
      simp only [brewTaskStep]
      split
      · exact h
      · split <;> exact h
  | review => exact promptAllowed_reevaluate c
  | _ => exact h

/-- Past its first step, so does a cycle. -/
theorem promptAllowed_cycleTaskStep {c : Core} (h : PromptAllowed c) {pc : CyclePc}
    (hpc : pc ≠ .entry) : PromptAllowed (cycleTaskStep c pc).core := by
  cases pc with
  | entry => exact absurd rfl hpc
  | prep plan => exact familyRaises_none c.device.family
  | tick plan elapsed =>
      simp only [cycleTaskStep]
      split <;> exact h
  | complete plan =>
      simp only [cycleTaskStep]
      rw [cycleComplete_eq]
      exact h.congr rfl (cycleComplete_family plan c)
  | review => exact promptAllowed_reevaluate c
  | _ => exact h

/-- The first step of a cycle raises the prompt of its plan, if it has one. -/
theorem promptAllowed_cycleEntry_iff {c : Core} (h : PromptAllowed c) :
    PromptAllowed (cycleTaskStep c .entry).core ↔
      (c.cycle.kind = .intensiveClean → c.family.hasPowderLid = true) := by
  obtain ⟨plan, hplan, -⟩ := findPlan_isSome c.cycle.kind
  have hprep := familyRaises_prepManip hplan c.device.family
  simp only [cycleTaskStep, hplan]
  split
  · exact hprep
  · rename_i hnone
    rw [not_ne_iff] at hnone
    rw [hnone] at hprep
    exact ⟨fun _ => hprep.mp (familyRaises_none _), fun _ => h⟩

/-! ## Steps -/

/-- The first step of an intensive clean. -/
def startsIntensiveClean (s : Concurrent) : Action → Bool
  | .op (.cycleTask i) =>
      s.core.cycle.tasks[i]? == some .entry && s.core.cycle.kind == .intensiveClean
  | _ => false

/-- No intensive clean asks for powder on a family without a powder lid. -/
def PrepSafe (s : Concurrent) (a : Action) : Prop :=
  startsIntensiveClean s a = true → s.core.family.hasPowderLid = true

instance (s : Concurrent) (a : Action) : Decidable (PrepSafe s a) :=
  inferInstanceAs (Decidable (_ → _))

/-- A family switch on the touch screen. -/
def Action.isFamilyUi : Action → Bool
  | .op (.familyUi _) => true
  | _ => false

theorem promptAllowed_cycleTask_iff {s : Concurrent} (h : PromptAllowed s.core) (i : ℕ) :
    PromptAllowed (cycleTask s.core i).1 ↔ PrepSafe s (.op (.cycleTask i)) := by
  rw [PrepSafe, startsIntensiveClean]
  rcases hpc : s.core.cycle.tasks[i]? with _ | pc
  · simpa [cycleTask, hpc] using h
  · obtain ⟨tasks, hcore⟩ := cycleTask_core hpc
    have hstep : PromptAllowed (cycleTask s.core i).1 ↔
        PromptAllowed (cycleTaskStep s.core pc).core := by
      rw [hcore]
      exact Iff.rfl
    rw [hstep]
    by_cases hentry : pc = .entry
    · subst hentry
      rw [promptAllowed_cycleEntry_iff h]
      simp
    · simpa [hentry] using promptAllowed_cycleTaskStep h hentry

/-- Operations of tanks, parts, registers and the console. -/
theorem promptAllowed_quiet {c : Core} (h : PromptAllowed c) {op : Op} (hquiet : op.quiet = true)
    (hui : ∀ key, op ≠ .familyUi key) : PromptAllowed (coreStep c op) := by
  rcases coreStep_quiet_cases c hquiet with
    he | ⟨d, he⟩ | ⟨write, he⟩ | rfl | ⟨key, rfl⟩ | ⟨key, rfl⟩
  · rwa [he]
  · rw [he]
    exact promptAllowed_reevaluate _
  · rw [he]
    exact h
  · exact promptAllowed_handleConfirm h
  · simp only [coreStep, cmdFamily]
    split
    · exact h
    · exact familyRaises_none _
  · exact absurd rfl (hui key)

theorem promptAllowed_brewTask {c : Core} (h : PromptAllowed c) (i : ℕ) :
    PromptAllowed (brewTask c i).1 := by
  rcases hpc : c.brew.tasks[i]? with _ | pc
  · simpa [brewTask, hpc] using h
  · obtain ⟨tasks, hcore⟩ := brewTask_core hpc
    rw [hcore]
    exact (promptAllowed_brewTaskStep h pc).congr rfl rfl

/-- A step keeps the prompt allowed exactly when it is no intensive clean that
asks for powder in vain. -/
theorem promptAllowed_step_iff (s : Concurrent) (a : Action) (hui : a.isFamilyUi = false)
    (h : PromptAllowed s.core) :
    PromptAllowed (concurrentStep s a).core ↔ PrepSafe s a := by
  have hkept (hsafe : PrepSafe s a) (hafter : PromptAllowed (concurrentStep s a).core) :
      PromptAllowed (concurrentStep s a).core ↔ PrepSafe s a :=
    ⟨fun _ => hsafe, fun _ => hafter⟩
  have htrivial (hstart : startsIntensiveClean s a = false) : PrepSafe s a := by
    rw [PrepSafe, hstart]
    exact fun hfalse => absurd hfalse Bool.false_ne_true
  rcases concurrentStep_core_cases s a with
    ⟨he, hnot⟩ | ⟨o, rfl, hstart, he⟩ | ⟨i, sel, recipe, twoCups, rfl, -, he⟩ |
      ⟨i, kind, rfl, -, he⟩
  · rw [he]
    refine ⟨fun _ => htrivial ?_, fun _ => h⟩
    rw [startsIntensiveClean.eq_def]
    split
    · exact absurd (hnot _ rfl) Bool.false_ne_true
    · rfl
  · cases o with
    | cycleTask i => exact promptAllowed_cycleTask_iff h i
    | brewStart processValue twoCups => exact absurd hstart (by simp [Op.starts])
    | cycleStart kind => exact absurd hstart (by simp [Op.starts])
    | reboot it => exact hkept (htrivial rfl) (promptAllowed_coldStart _)
    | brewTask i => exact hkept (htrivial rfl) (promptAllowed_brewTask h i)
    | brewCancel =>
        refine hkept (htrivial rfl) ?_
        obtain ⟨cancel, hcancel⟩ := nivonaBrewCancel_frame s.core
        rw [he, coreStep, hcancel]
        exact h
    | cycleCancel =>
        refine hkept (htrivial rfl) ?_
        obtain ⟨cancel, hcancel⟩ := nivonaMaintCycleCancel_frame s.core
        rw [he, coreStep, hcancel]
        exact h
    | familyUi key => exact absurd hui (by simp [Action.isFamilyUi])
    | _ => exact hkept (htrivial rfl) (promptAllowed_quiet h rfl (by simp))
  · obtain ⟨brew, taskResults, -, hcommit⟩ := brewCommit_frame s.core sel recipe twoCups
    rw [he, hcommit]
    exact ⟨fun _ => htrivial rfl, fun _ => h⟩
  · obtain ⟨cycle, taskResults, -, hcommit⟩ := cycleCommit_frame s.core kind
    rw [he, hcommit]
    exact ⟨fun _ => htrivial rfl, fun _ => h⟩

/-! ## The result -/

/-- Without family switches on the touch screen, every prompt is one the
current family can raise exactly when no intensive clean asks for powder on a
family without a powder lid. -/
theorem promptAllowed_iff_prepSafe (it : NvsIterator) (nvs : Nvs) (taskResults : ℕ → Bool)
    (actions : List Action) (hactions : ∀ a ∈ actions, a.isFamilyUi = false) :
    (∀ before, before <+: actions → PromptAllowed
      (Runs.run concurrentStep (Concurrent.boot it nvs taskResults) before).core) ↔
    Runs.Guarded concurrentStep PrepSafe (Concurrent.boot it nvs taskResults) actions := by
  have hinit : PromptAllowed (Concurrent.boot it nvs taskResults).core := by
    rw [Concurrent.boot, appMain]
    exact promptAllowed_coldStart _
  exact Runs.forall_prefix_iff_guarded (fun s : Concurrent => PromptAllowed s.core)
    (fun a : Action => a.isFamilyUi = false) promptAllowed_step_iff hinit hactions

/-- An intensive clean on the 8000 family, which has a powder lid. -/
theorem promptAllowed_intensiveClean_8000 :
    PromptAllowed (Runs.run concurrentStep
      (Concurrent.boot NvsIterator.storageOrder Nvs.empty fun _ => true)
      [.op (.cycleStart .intensiveClean), .resume 0, .resume 0, .op (.cycleTask 0)]).core :=
  (promptAllowed_iff_prepSafe NvsIterator.storageOrder Nvs.empty (fun _ => true) _
    (by decide)).mpr (by decide) _ List.prefix_rfl

/-- The same cycle on the 700 family, which has none. -/
theorem powder_prompt_without_lid :
    ¬PromptAllowed (Runs.run concurrentStep
      (Concurrent.boot NvsIterator.storageOrder Nvs.empty fun _ => true)
      [.op (.familyCli "700"), .op (.cycleStart .intensiveClean), .resume 0, .resume 0,
        .op (.cycleTask 0)]).core := by
  decide

end Nivona
