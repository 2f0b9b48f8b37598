import NivonaEmulator.ConsumableTasks
import NivonaEmulator.System

/-!
# The prompt re-evaluated by several tasks

`nivona_maint_reevaluate` reads the family, the parts and the tanks through one
getter after the other, each with its own lock, and stores the prompt in a last
section.  Here the re-evaluations of the brew task, the cycle task, the BLE host,
the console and the touch screen are interleaved section by section.  The prompt
fits the machine once all tasks are done in the runs in which an evaluation that
was overtaken by a change is stored only while another task still has to
re-evaluate.
-/

namespace Nivona

/-! ## One re-evaluation -/

/-- Program points of `nivona_maint_reevaluate`: before the family is read, before
each getter of `evaluate`, and before the prompt is stored. -/
inductive EvalPoint
  | family
  | brewUnit (mask : UInt32)
  | trays (mask : UInt32)
  | powderLid (mask : UInt32)
  | water (mask : UInt32)
  | tray (mask : UInt32)
  | store (manip : UInt8)
  deriving DecidableEq, Repr

/-- The next section of a re-evaluation. -/
def evalStep (d : Device) : EvalPoint → EvalPoint
  | .family => .brewUnit (nivonaMaintFamilyMask (nivonaFamilyCurrent d).key)
  | .brewUnit mask =>
      if !nivonaPartGet d .brewUnit && mask &&& manipBit MANIP_BU_REMOVED != 0 then
        .store MANIP_BU_REMOVED
      else .trays mask
  | .trays mask =>
      if !nivonaPartGet d .trays && mask &&& manipBit MANIP_TRAYS_MISSING != 0 then
        .store MANIP_TRAYS_MISSING
      else .powderLid mask
  | .powderLid mask =>
      if !nivonaPartGet d .powderLid && mask &&& manipBit MANIP_CLOSE_POWDER_LID != 0 then
        .store MANIP_CLOSE_POWDER_LID
      else .water mask
  | .water mask =>
      if nivonaConsumableGet d .water < NIVONA_THR_WATER_LOW &&
          mask &&& manipBit MANIP_FILL_WATER != 0 then
        .store MANIP_FILL_WATER
      else .tray mask
  | .tray mask =>
      if nivonaConsumableGet d .tray > NIVONA_THR_TRAY_FULL &&
          mask &&& manipBit MANIP_EMPTY_TRAYS != 0 then
        .store MANIP_EMPTY_TRAYS
      else .store MANIP_NONE
  | .store manip => .store manip

/-- Sections before the last one, at most. -/
def EvalPoint.left : EvalPoint → ℕ
  | .family => 6
  | .brewUnit _ => 5
  | .trays _ => 4
  | .powderLid _ => 3
  | .water _ => 2
  | .tray _ => 1
  | .store _ => 0

/-- The prompt a re-evaluation is going to store. -/
def EvalPoint.manip? : EvalPoint → Option UInt8
  | .store manip => some manip
  | _ => none

/-- The prompt that comes out at `p` when the machine stays as it is. -/
def EvalPoint.prompt (d : Device) (p : EvalPoint) : UInt8 :=
  (((evalStep d)^[6] p).manip?).getD MANIP_NONE

theorem evalStep_left (d : Device) (p : EvalPoint) : (evalStep d p).left ≤ p.left - 1 := by
  cases p with
  | family => exact Nat.le_refl 5
  | store manip => exact Nat.le_refl 0
  | _ =>
      simp only [evalStep]
      split <;> simp [EvalPoint.left]

/-- A re-evaluation comes to its last section and stays there. -/
theorem exists_store (d : Device) {n : ℕ} {p : EvalPoint} (h : p.left ≤ n) :
    ∃ manip, (evalStep d)^[n] p = .store manip := by
  induction n generalizing p with
  | zero =>
      cases p with
      | store manip => exact ⟨manip, rfl⟩
      | _ => exact absurd h (by simp [EvalPoint.left])
  | succ n ih =>
      have hleft := evalStep_left d p
      exact ih (p := evalStep d p) (by omega)

theorem prompt_evalStep (d : Device) (p : EvalPoint) :
    (evalStep d p).prompt d = p.prompt d := by
  have hle : p.left ≤ 6 := by cases p <;> simp [EvalPoint.left]
  obtain ⟨manip, hstore⟩ := exists_store d hle
  have hmore : (evalStep d)^[6] (evalStep d p) = (evalStep d)^[6] p := by
    calc
      (evalStep d)^[6] (evalStep d p) = evalStep d ((evalStep d)^[6] p) :=
        Function.Commute.iterate_left (Function.Commute.refl _) 6 p
      _ = (evalStep d)^[6] p := by rw [hstore]; rfl
  rw [EvalPoint.prompt, EvalPoint.prompt, hmore]

@[simp] theorem prompt_store (d : Device) (manip : UInt8) :
    EvalPoint.prompt d (.store manip) = manip := by
  have hstay : (evalStep d)^[6] (.store manip) = .store manip := Function.iterate_fixed rfl 6
  rw [EvalPoint.prompt, hstay]
  rfl

/-- A section either decides on a prompt or hands over to the next. -/
theorem prompt_ite (d : Device) (c : Prop) [Decidable c] (manip : UInt8) (p : EvalPoint) :
    EvalPoint.prompt d (if c then .store manip else p) =
      if c then manip else EvalPoint.prompt d p := by
  rw [apply_ite (EvalPoint.prompt d), prompt_store]

/-- A re-evaluation that nobody disturbs comes to `evaluate`. -/
theorem prompt_family (d : Device) :
    EvalPoint.prompt d .family =
      evaluate d (nivonaMaintFamilyMask (nivonaFamilyCurrent d).key) := by
  rw [← prompt_evalStep, evalStep]
  generalize nivonaMaintFamilyMask (nivonaFamilyCurrent d).key = mask
  rw [evaluate, ← prompt_evalStep d (.brewUnit mask), evalStep, prompt_ite,
    ← prompt_evalStep d (.trays mask), evalStep, prompt_ite,
    ← prompt_evalStep d (.powderLid mask), evalStep, prompt_ite,
    ← prompt_evalStep d (.water mask), evalStep, prompt_ite,
    ← prompt_evalStep d (.tray mask), evalStep, prompt_ite, prompt_store]

/-! ## Tasks -/

/-- The prompt as a view of the device. -/
def promptReader : Publish.Reader Device EvalPoint UInt8 where
  start := .family
  look := evalStep
  result := EvalPoint.manip?
  value := EvalPoint.prompt
  value_look := prompt_evalStep
  value_result d p manip hresult := by
    cases p with
    | store manip' =>
        obtain rfl := Option.some.inj hresult
        exact prompt_store d manip'
    | _ => exact absurd hresult (by simp [EvalPoint.manip?])

/-- The device, the manipulation byte of the status, and the tasks: between two
re-evaluations, having changed something since the last one, or inside one. -/
abbrev PromptTasks (ι : Type*) := Publish.State ι Device EvalPoint UInt8

inductive PromptStep (ι : Type*)
  /-- a setter of the consumables -/
  | call (i : ι) (c : ConsumCall)
  /-- `nivona_fsm_set_manipulation` of a brew, a cycle or a confirmed prompt -/
  | setManipulation (i : ι) (manip : UInt8)
  /-- a call of `nivona_maint_reevaluate` -/
  | reevaluate (i : ι)
  | resume (i : ι)

section

variable {ι : Type*}

/-- The step of a publication that a task makes. -/
def PromptStep.toPublish (s : PromptTasks ι) : PromptStep ι → Publish.Step ι Device UInt8
  | .call i c => .change i c.whole
  | .setManipulation i manip => .overwrite i manip
  | .reevaluate i => .start i
  | .resume i =>
      match s.stage i with
      | .reading (.store _) => .publish i
      | _ => .look i

/-- The prompt that the machine calls for. -/
def PromptTasks.hardPrompt (s : PromptTasks ι) : UInt8 :=
  evaluate s.memory (nivonaMaintFamilyMask (nivonaFamilyCurrent s.memory).key)

/-- A task is going to store the prompt the machine calls for now: it still has to
begin, or nothing it has read has changed in a way that matters. -/
def PromptTasks.Owed (s : PromptTasks ι) (i : ι) : Prop :=
  match s.stage i with
  | .idle => False
  | .due => True
  | .reading p => p.prompt s.memory = s.hardPrompt

instance decidableOwed (s : PromptTasks ι) (i : ι) : Decidable (s.Owed i) :=
  match h : s.stage i with
  | .idle => isFalse (by simp [PromptTasks.Owed, h])
  | .due => isTrue (by simp [PromptTasks.Owed, h])
  | .reading p =>
      decidable_of_iff (p.prompt s.memory = s.hardPrompt) (by simp [PromptTasks.Owed, h])

variable [DecidableEq ι]

def promptStep (s : PromptTasks ι) (a : PromptStep ι) : PromptTasks ι :=
  Publish.step promptReader s (a.toPublish s)

/-- The tasks before anything happens to the core. -/
def PromptTasks.of (c : Core) : PromptTasks ι :=
  { memory := c.device, shown := c.status.manipulation, stage := fun _ => .idle }

/-- An evaluation that was overtaken is stored only while another task is going to
store the right prompt. -/
def PromptInTime (s : PromptTasks ι) : PromptStep ι → Prop
  | .resume i =>
      match s.stage i with
      | .reading (.store manip) => manip = s.hardPrompt ∨ ∃ j, j ≠ i ∧ s.Owed j
      | _ => True
  | _ => True

instance decidablePromptInTime [Fintype ι] (s : PromptTasks ι) :
    ∀ a, Decidable (PromptInTime s a)
  | .call _ _ => isTrue trivial
  | .setManipulation _ _ => isTrue trivial
  | .reevaluate _ => isTrue trivial
  | .resume i =>
      match h : s.stage i with
      | .reading (.store manip) =>
          decidable_of_iff (manip = s.hardPrompt ∨ ∃ j, j ≠ i ∧ s.Owed j)
            (by simp [PromptInTime, h])
      | .reading .family => isTrue (by simp [PromptInTime, h])
      | .reading (.brewUnit _) => isTrue (by simp [PromptInTime, h])
      | .reading (.trays _) => isTrue (by simp [PromptInTime, h])
      | .reading (.powderLid _) => isTrue (by simp [PromptInTime, h])
      | .reading (.water _) => isTrue (by simp [PromptInTime, h])
      | .reading (.tray _) => isTrue (by simp [PromptInTime, h])
      | .idle => isTrue (by simp [PromptInTime, h])
      | .due => isTrue (by simp [PromptInTime, h])

/-! ## A re-evaluation that is not interrupted -/

/-- One task has its re-evaluation at `p`, the others are idle. -/
def PromptTasks.evaluating (c : Core) (i : ι) (p : EvalPoint) : PromptTasks ι :=
  { memory := c.device
    shown := c.status.manipulation
    stage := Function.update (fun _ => .idle) i (.reading p) }

theorem stage_evaluating (c : Core) (i : ι) (p : EvalPoint) :
    (PromptTasks.evaluating c i p).stage i = .reading p := by
  simp [PromptTasks.evaluating]

theorem promptStep_idle {s : PromptTasks ι} {i : ι} (h : s.stage i = .idle) :
    promptStep s (.resume i) = s := by
  simp [promptStep, PromptStep.toPublish, Publish.step, h]

theorem run_resume_idle {s : PromptTasks ι} {i : ι} (h : s.stage i = .idle) (n : ℕ) :
    Runs.run promptStep s (List.replicate n (.resume i)) = s := by
  induction n with
  | zero => rfl
  | succ n ih => rw [List.replicate_succ, Runs.run_cons, promptStep_idle h, ih]

theorem promptStep_look (c : Core) (i : ι) {p : EvalPoint} (h : p.manip? = none) :
    promptStep (.evaluating c i p) (.resume i) = .evaluating c i (evalStep c.device p) := by
  have hlook : (PromptStep.resume i).toPublish (.evaluating c i p) = .look i := by
    rw [PromptStep.toPublish, stage_evaluating]
    cases p with
    | store manip => exact absurd h (by simp [EvalPoint.manip?])
    | _ => rfl
  rw [promptStep, hlook]
  simp only [Publish.step, stage_evaluating]
  simp [PromptTasks.evaluating, promptReader]

theorem promptStep_store (c : Core) (i : ι) (manip : UInt8) :
    promptStep (.evaluating c i (.store manip)) (.resume i) =
      .of (nivonaFsmSetManipulation c manip) := by
  have hresult : promptReader.result (.store manip) = some manip := rfl
  simp only [promptStep, PromptStep.toPublish, stage_evaluating, Publish.step, hresult]
  simp [PromptTasks.evaluating, PromptTasks.of, nivonaFsmSetManipulation]

theorem run_resume_evaluating (c : Core) (i : ι) {n : ℕ} {p : EvalPoint} (h : p.left ≤ n) :
    Runs.run promptStep (.evaluating c i p) (List.replicate (n + 1) (.resume i)) =
      .of (nivonaFsmSetManipulation c (p.prompt c.device)) := by
  induction n generalizing p with
  | zero =>
      cases p with
      | store manip =>
          rw [prompt_store]
          exact promptStep_store c i manip
      | _ => exact absurd h (by simp [EvalPoint.left])
  | succ n ih =>
      rw [List.replicate_succ, Runs.run_cons]
      rcases hmanip : p.manip? with _ | manip
      · have hleft := evalStep_left c.device p
        rw [promptStep_look c i hmanip, ih (by omega), prompt_evalStep]
      · obtain rfl : p = .store manip := by
          cases p with
          | store manip' => exact congrArg _ (Option.some.inj hmanip)
          | _ => exact absurd hmanip (by simp [EvalPoint.manip?])
        rw [promptStep_store, prompt_store]
        exact run_resume_idle rfl (n + 1)

/-- Without other tasks the sections make up `nivonaMaintReevaluate`. -/
theorem run_reevaluate (c : Core) (i : ι) :
    Runs.run promptStep (.of c) (.reevaluate i :: List.replicate 7 (.resume i)) =
      .of (nivonaMaintReevaluate c) := by
  have hstart : promptStep (.of c) (.reevaluate i) = .evaluating c i .family := rfl
  rw [Runs.run_cons, hstart, run_resume_evaluating c i (Nat.le_refl 6), prompt_family]
  rfl

/-! ## Interleaved re-evaluations -/

/-- The prompt is right, or a task is going to store the right one. -/
def PromptTasks.Settled (s : PromptTasks ι) : Prop :=
  s.shown = s.hardPrompt ∨ ∃ i, s.Owed i

section

variable {s : PromptTasks ι} {i : ι}

omit [DecidableEq ι] in
theorem view_promptReader (s : PromptTasks ι) : promptReader.view s.memory = s.hardPrompt :=
  prompt_family s.memory

omit [DecidableEq ι] in
theorem owed_iff : Publish.Pending promptReader s i ↔ s.Owed i := by
  rcases hstage : s.stage i with _ | _ | p
  · simp [Publish.Pending, PromptTasks.Owed, hstage]
  · simp [Publish.Pending, PromptTasks.Owed, hstage]
  · simp only [Publish.Pending, PromptTasks.Owed, hstage, Publish.Fresh, view_promptReader]
    rfl

omit [DecidableEq ι] in
theorem settled_promptReader_iff : Publish.Settled promptReader s ↔ s.Settled := by
  rw [Publish.Settled, view_promptReader]
  exact or_congr_right (exists_congr fun _ => owed_iff)

omit [DecidableEq ι] in
theorem promptInTime_iff (a : PromptStep ι) :
    Publish.InTime promptReader s (a.toPublish s) ↔ PromptInTime s a := by
  cases a with
  | resume i =>
      rcases hstage : s.stage i with _ | _ | p
      · simp [PromptStep.toPublish, Publish.InTime, PromptInTime, hstage]
      · simp [PromptStep.toPublish, Publish.InTime, PromptInTime, hstage]
      · cases p with
        | store manip =>
            have hfresh : Publish.Fresh promptReader s (.store manip) ↔
                manip = s.hardPrompt := by
              rw [Publish.Fresh, view_promptReader]
              exact Eq.congr_left (prompt_store s.memory manip)
            have hresult : promptReader.result (.store manip) = some manip := rfl
            simp only [PromptStep.toPublish, Publish.InTime, PromptInTime, hstage, hresult,
              Option.isSome_some, true_implies, hfresh, owed_iff]
        | _ => simp [PromptStep.toPublish, Publish.InTime, PromptInTime, hstage]
  | _ => exact Iff.rfl

theorem promptSettled_step_iff (hsettled : s.Settled) (a : PromptStep ι) :
    (promptStep s a).Settled ↔ PromptInTime s a := by
  rw [← settled_promptReader_iff] at hsettled ⊢
  exact (Publish.settled_step_iff hsettled _).trans (promptInTime_iff a)

end

/-- From a machine with the right prompt on, the prompt stays right or a task is
going to store the right one in exactly the runs in which no overtaken evaluation
is stored last. -/
theorem promptSettled_iff_inTime {c : Core} (hc : c.status.manipulation = c.hardPrompt)
    (actions : List (PromptStep ι)) :
    (∀ before, before <+: actions → (Runs.run promptStep (.of c) before).Settled) ↔
      Runs.Guarded promptStep PromptInTime (.of c) actions :=
  Runs.forall_prefix_iff_guarded PromptTasks.Settled (fun _ => True)
    (fun _ a _ h => promptSettled_step_iff h a) (.inl hc) fun _ _ => trivial

/-- Once every task that changed something has re-evaluated, the prompt is the one
the machine calls for. -/
theorem prompt_right_of_quiet {c : Core} (hc : c.status.manipulation = c.hardPrompt)
    {actions : List (PromptStep ι)}
    (hrun : Runs.Guarded promptStep PromptInTime (.of c) actions)
    (hquiet : ∀ i, (Runs.run promptStep (.of c) actions).stage i = .idle) :
    (Runs.run promptStep (.of c) actions).shown =
      (Runs.run promptStep (.of c) actions).hardPrompt := by
  rcases (promptSettled_iff_inTime hc actions).mpr hrun actions List.prefix_rfl with
    hright | ⟨i, hi⟩
  · exact hright
  · rw [PromptTasks.Owed, hquiet i] at hi
    exact hi.elim

end

/-! ## A brew that ends while the operator refills -/

/-- The machine after the first confirmed prompt. -/
def confirmedMachine : Core :=
  nivonaMaintReevaluate (appMain NvsIterator.storageOrder Nvs.empty fun _ => true)

/-- The first task has emptied the tank and is about to raise the prompt when the
second fills the tank. -/
def refillRace : List (PromptStep Bool) :=
  [.call false (.adjust .water (-95)), .reevaluate false] ++
    List.replicate 5 (.resume false) ++ [.call true (.set .water 100)]

/-- The prompt is raised before the second task re-evaluates. -/
theorem prompt_right_of_quiet_refill :
    let s := Runs.run promptStep (.of confirmedMachine)
      (refillRace ++ [.resume false, .reevaluate true] ++ List.replicate 7 (.resume true))
    s.shown = s.hardPrompt :=
  prompt_right_of_quiet (by decide +kernel) (by decide +kernel) (by decide +kernel)

/-- Raised afterwards, the prompt asks for water with the tank full. -/
example :
    let s := Runs.run promptStep (.of confirmedMachine)
      (refillRace ++ .reevaluate true :: List.replicate 7 (.resume true) ++ [.resume false])
    (∀ i, s.stage i = .idle) ∧ s.shown = MANIP_FILL_WATER ∧ s.memory.levels .water = 100 := by
  decide +kernel

end Nivona
