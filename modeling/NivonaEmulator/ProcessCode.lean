import NivonaEmulator.Sections

/-!
# The process code

A brew takes the codes of the family that is current at its start, a cycle looks
them up where it needs them and stores them a section later, the console stores
the family first and resets the status afterwards, and the touch screen does not
reset it.  The process code fits what the machine is doing in every run in which no
switch, and no overlap of a brew and a cycle, comes between a task and the code it
leaves.
-/

namespace Nivona

/-! ## What the machine is doing -/

/-- The brew task has gone back to READY. -/
def BrewPoint.home : BrewPoint → Bool
  | .readyProgress _ | .check _ | .wear _ | .review | .reviewPush | .cleanup => true
  | _ => false

/-- The cycle task has gone back to READY. -/
def CyclePoint.home : CyclePoint → Bool
  | .readyProgress | .review | .reviewPush | .cleanup => true
  | _ => false

/-- The cycle task has announced itself and is in its tick loop. -/
def CyclePoint.inRamp : CyclePoint → Bool
  | .announcePush _ | .tick .. | .progress .. | .tickPush .. => true
  | _ => false

/-- A console switch has stored the family and not yet reset the status. -/
def SwitchPoint.pending : SwitchPoint → Bool
  | .persist _ resets => resets
  | .family | .reset _ => true
  | .select .. => false

/-- Every task there is has gone back to READY. -/
def Homed (s : Sectioned) : Prop :=
  (∀ p ∈ s.brews, p.home = true) ∧ ∀ p ∈ s.cycles, p.home = true

/-- A cycle is in its ramp. -/
def Ramping (s : Sectioned) : Prop := ∃ p ∈ s.cycles, p.inRamp = true

/-- Every state is looked at, or, with `settled`, the states in which no console switch is
between its two stores. -/
def LookedAt (settled : Bool) (switches : List SwitchPoint) : Prop :=
  settled = true → ∀ p ∈ switches, p.pending = false

/-- The code is neither the ready nor the brewing code of the family. -/
def OtherThan (code : Int16) (fam : Family) : Prop :=
  code ≠ fam.processReady ∧ code ≠ fam.processBrewing

instance (s : Sectioned) : Decidable (Homed s) := inferInstanceAs (Decidable (_ ∧ _))

instance (s : Sectioned) : Decidable (Ramping s) :=
  inferInstanceAs (Decidable (∃ p ∈ s.cycles, _))

instance (settled : Bool) (switches : List SwitchPoint) :
    Decidable (LookedAt settled switches) :=
  inferInstanceAs (Decidable (settled = true → ∀ p ∈ switches, _))

instance (code : Int16) (fam : Family) : Decidable (OtherThan code fam) :=
  inferInstanceAs (Decidable (_ ∧ _))

/-- The process code says what the machine is doing. -/
structure ProcessMatches (settled : Bool) (s : Sectioned) : Prop where
  idle : LookedAt settled s.switches → s.core.brew.active = false →
    s.core.cycle.active = false → s.core.status.process = s.core.family.processReady
  ramp : Ramping s → OtherThan s.core.status.process s.core.family

/-- What the code is once all tasks are back, and during a ramp. -/
structure ProcessInv (settled : Bool) (s : Sectioned) : Prop where
  homed : Homed s → LookedAt settled s.switches →
    s.core.status.process = s.core.family.processReady
  ramp : Ramping s → OtherThan s.core.status.process s.core.family

/-! ## Runs in step -/

/-- A brew writes no code into the ramp of a cycle, and the ready code it took at its
start is that of the family when it goes back. -/
def BrewPoint.InStepWith (settled : Bool) (s : Sectioned) : BrewPoint → Prop
  | .announce _ | .stageCode .. => ¬Ramping s
  | .ready run => ¬Ramping s ∧ ((∀ p ∈ s.cycles, p.home = true) →
      LookedAt settled s.switches → run.readyCode = s.core.family.processReady)
  | _ => True

/-- The code that a cycle has looked up still fits the family when it is stored. -/
def CyclePoint.InStepWith (settled : Bool) (s : Sectioned) : CyclePoint → Prop
  | .announce _ emitCode => OtherThan emitCode s.core.family
  | .ready readyCode => (∀ p ∈ s.brews, p.home = true) →
      LookedAt settled s.switches → readyCode = s.core.family.processReady
  | _ => True

/-- A switch keeps the ready code once every task is back, unless it is the console's and
only settled states are looked at; it does not select a family with the code that a ramp
shows.  The reset comes outside a ramp and stores the ready code of the family. -/
def SwitchPoint.InStepWith (settled : Bool) (s : Sectioned) (others : List SwitchPoint) :
    SwitchPoint → Prop
  | .select f resets =>
      (Homed s → LookedAt settled s.switches → (settled = true → resets = false) →
          (familyRow f).processReady = s.core.family.processReady) ∧
        (Ramping s → OtherThan s.core.status.process (familyRow f))
  | .reset f => ¬Ramping s ∧ (Homed s → LookedAt settled others →
      (familyRow f).processReady = s.core.family.processReady)
  | _ => True

/-- Starts, cancels, restarts and all other operations are free. -/
def CodesInStep (settled : Bool) (s : Sectioned) : SectionAction → Prop
  | .op (.brewTask i) => ∀ p ∈ s.brews[i]?, p.InStepWith settled s
  | .op (.cycleTask i) => ∀ p ∈ s.cycles[i]?, p.InStepWith settled s
  | .resumeSwitch i =>
      ∀ p ∈ s.switches[i]?, p.InStepWith settled s (s.switches.eraseIdx i)
  | _ => True

instance (settled : Bool) (s : Sectioned) : (p : BrewPoint) → Decidable (p.InStepWith settled s)
  | .announce _ | .stageCode .. => inferInstanceAs (Decidable (¬_))
  | .ready run => inferInstanceAs (Decidable (¬Ramping s ∧ ((∀ p ∈ s.cycles, p.home = true) →
      LookedAt settled s.switches → run.readyCode = s.core.family.processReady)))
  | .entry | .family _ | .clearProgress _ | .clearInfo _ | .clearPrompt _ | .announcePush _
  | .stage .. | .tick .. | .progress .. | .tickPush .. | .readyProgress _ | .check _ | .wear _
  | .review | .reviewPush | .cleanup => inferInstanceAs (Decidable True)

instance (settled : Bool) (s : Sectioned) :
    (p : CyclePoint) → Decidable (p.InStepWith settled s)
  | .announce _ emitCode => inferInstanceAs (Decidable (OtherThan emitCode s.core.family))
  | .ready readyCode => inferInstanceAs (Decidable ((∀ p ∈ s.brews, p.home = true) →
      LookedAt settled s.switches → readyCode = s.core.family.processReady))
  | .entry | .prep _ | .prepPush _ | .prepClear _ | .family _ | .announcePush _ | .tick ..
  | .progress .. | .tickPush .. | .check _ | .complete _ | .readyFamily | .readyProgress
  | .review | .reviewPush | .cleanup => inferInstanceAs (Decidable True)

instance (settled : Bool) (s : Sectioned) (others : List SwitchPoint) :
    (p : SwitchPoint) → Decidable (p.InStepWith settled s others)
  | .select f reset => inferInstanceAs (Decidable
      ((Homed s → LookedAt settled s.switches → (settled = true → reset = false) →
          (familyRow f).processReady = s.core.family.processReady) ∧
        (Ramping s → OtherThan s.core.status.process (familyRow f))))
  | .reset f => inferInstanceAs (Decidable (¬Ramping s ∧ (Homed s → LookedAt settled others →
      (familyRow f).processReady = s.core.family.processReady)))
  | .persist .. | .family => inferInstanceAs (Decidable True)

instance (settled : Bool) (s : Sectioned) :
    (a : SectionAction) → Decidable (CodesInStep settled s a)
  | .op (.brewTask i) =>
      inferInstanceAs (Decidable (∀ p ∈ s.brews[i]?, p.InStepWith settled s))
  | .op (.cycleTask i) =>
      inferInstanceAs (Decidable (∀ p ∈ s.cycles[i]?, p.InStepWith settled s))
  | .resumeSwitch i => inferInstanceAs (Decidable
      (∀ p ∈ s.switches[i]?, p.InStepWith settled s (s.switches.eraseIdx i)))
  | .op (.reboot _) | .op (.brewStart ..) | .op (.cycleStart _) | .op .brewCancel
  | .op .cycleCancel | .op .confirm | .op (.tank ..) | .op (.fix _) | .op (.part ..)
  | .op .refillWater | .op .refillBeans | .op .emptyTray | .op (.familyCli _)
  | .op (.familyUi _) | .op (.setNum ..) | .op (.setAlpha ..) | .op (.eraseNum _)
  | .resume _ => inferInstanceAs (Decidable True)

/-! ## Frames -/

theorem mem_advance_singleton {α : Type} {x y : α} {next : Option α} :
    y ∈ advance [x] 0 next ↔ y ∈ next := by
  cases next with
  | none => simp [advance]
  | some z => simp [advance, eq_comm]

theorem family_congr {c c' : Core} (h : c'.device.family = c.device.family) :
    c'.family = c.family := by
  rw [Core.family, Core.family, nivonaFamilyCurrent, nivonaFamilyCurrent, h]

/-- A step that leaves the code and the family alone keeps the invariant when no task
comes back, no ramp begins and no switch is over. -/
theorem ProcessInv.of_same {settled : Bool} {s s' : Sectioned} (h : ProcessInv settled s)
    (hprocess : s'.core.status.process = s.core.status.process)
    (hfamily : s'.core.device.family = s.core.device.family) (hhomed : Homed s' → Homed s)
    (hlooked : LookedAt settled s'.switches → LookedAt settled s.switches)
    (hramp : Ramping s' → Ramping s) : ProcessInv settled s' := by
  have hfam := family_congr hfamily
  constructor
  · intro hhome hlook
    rw [hprocess, hfam]
    exact h.homed (hhomed hhome) (hlooked hlook)
  · intro hramping
    rw [hprocess, hfam]
    exact h.ramp (hramp hramping)

/-! ## Tasks -/

/-- Three sections of a brew store a code, and with the last one it is back. -/
theorem process_brewSection (c : Core) (p : BrewPoint) :
    ((∀ settled s, p.InStepWith settled s → ¬Ramping s) ∧
        ¬∀ p' ∈ (brewSection c p).next, p'.home = true) ∨
      (∃ run, p = .ready run ∧ (brewSection c p).core.status.process = run.readyCode) ∨
      (brewSection c p).core.status.process = c.status.process ∧
        ((∀ p' ∈ (brewSection c p).next, p'.home = true) → p.home = true) := by
  cases p with
  | announce run => exact .inl ⟨fun _ _ h => h, by simp [brewSection, BrewPoint.home]⟩
  | stageCode run i elapsedMs sub =>
      exact .inl ⟨fun _ _ h => h, by simp [brewSection, BrewPoint.home]⟩
  | ready run => exact .inr (.inl ⟨run, rfl, rfl⟩)
  | stage run i elapsedMs =>
      refine .inr (.inr ?_)
      simp only [brewSection]
      split <;> exact ⟨rfl, by simp [BrewPoint.home]⟩
  | tick run i stageElapsed elapsedMs =>
      refine .inr (.inr ?_)
      simp only [brewSection]
      split
      · exact ⟨rfl, by simp [BrewPoint.home]⟩
      · split <;> exact ⟨rfl, by simp [BrewPoint.home]⟩
  | _ => exact .inr (.inr ⟨rfl, by simp [brewSection, BrewPoint.home]⟩)

/-- The only brew task there is. -/
theorem processInv_brew {settled : Bool} {s : Sectioned} (hsingle : s.Single)
    (h : ProcessInv settled s) {i : ℕ} {p : BrewPoint} (hp : s.brews[i]? = some p)
    (hstep : p.InStepWith settled s) :
    ProcessInv settled { s with
      core := (brewSection s.core p).core
      brews := advance s.brews i (brewSection s.core p).next } := by
  obtain ⟨rfl, hbrews⟩ := hsingle.brew.eq_singleton hp
  obtain ⟨-, -, hfamily⟩ := brewSection_frame s.core p
  have hhome (hhomed : Homed { s with
      core := (brewSection s.core p).core
      brews := advance s.brews 0 (brewSection s.core p).next }) :
      (∀ p' ∈ (brewSection s.core p).next, p'.home = true) ∧
        ∀ q ∈ s.cycles, q.home = true := by
    refine ⟨fun p' hp' => hhomed.1 p' ?_, hhomed.2⟩
    rw [hbrews]
    exact mem_advance_singleton.mpr hp'
  rcases process_brewSection s.core p with
    ⟨hquiet, haway⟩ | ⟨run, rfl, hcode⟩ | ⟨hprocess, hback⟩
  · constructor
    · intro hhomed
      exact absurd (hhome hhomed).1 haway
    · intro hramping
      exact absurd hramping (hquiet settled s hstep)
  · constructor
    · intro hhomed hlook
      rw [hcode, family_congr hfamily]
      exact hstep.2 (hhome hhomed).2 hlook
    · intro hramping
      exact absurd hramping hstep.1
  · refine h.of_same hprocess hfamily ?_ id id
    intro hhomed
    refine ⟨?_, (hhome hhomed).2⟩
    rw [hbrews]
    simpa using hback (hhome hhomed).1

/-- The code a cycle announces is neither of the family's own. -/
theorem otherThan_cycleEmitCode (f : FamilyId) (k : CycleKind) :
    OtherThan (cycleEmitCode (familyRow f) k) (familyRow f) := by
  cases k <;> revert f <;> decide

/-- One section of a cycle stores the code it announces, and one goes back to READY. -/
theorem process_cycleSection (c : Core) (p : CyclePoint) :
    (∃ plan emitCode, p = .announce plan emitCode ∧
        (cycleSection c p).core.status.process = emitCode ∧
        (cycleSection c p).next = some (.announcePush plan)) ∨
      (∃ readyCode, p = .ready readyCode ∧
        (cycleSection c p).core.status.process = readyCode ∧
        (cycleSection c p).next = some .readyProgress) ∨
      (cycleSection c p).core.status.process = c.status.process ∧
        ((∀ p' ∈ (cycleSection c p).next, p'.home = true) → p.home = true) ∧
        ((∃ p' ∈ (cycleSection c p).next, p'.inRamp = true) → p.inRamp = true) := by
  cases p with
  | announce plan emitCode => exact .inl ⟨plan, emitCode, rfl, rfl, rfl⟩
  | ready readyCode => exact .inr (.inl ⟨readyCode, rfl, rfl, rfl⟩)
  | entry =>
      obtain ⟨plan, hplan, -⟩ := findPlan_isSome c.cycle.kind
      refine .inr (.inr ?_)
      simp only [cycleSection, hplan, true_and]
      split <;> simp [CyclePoint.home, CyclePoint.inRamp]
  | tick plan elapsed =>
      refine .inr (.inr ?_)
      simp only [cycleSection]
      split <;> exact ⟨rfl, by simp [CyclePoint.home], by simp [CyclePoint.inRamp]⟩
  | check plan =>
      refine .inr (.inr ⟨rfl, ?_⟩)
      simp only [cycleSection]
      split <;> simp [CyclePoint.home, CyclePoint.inRamp]
  | complete plan =>
      refine .inr (.inr ⟨?_, by simp [cycleSection, CyclePoint.home],
        by simp [cycleSection, CyclePoint.inRamp]⟩)
      simp only [cycleSection]
      rw [cycleComplete_eq]
  | _ =>
      exact .inr (.inr ⟨rfl, by simp [cycleSection, CyclePoint.home],
        by simp [cycleSection, CyclePoint.inRamp]⟩)

/-- The only cycle task there is. -/
theorem processInv_cycle {settled : Bool} {s : Sectioned} (hsingle : s.Single)
    (h : ProcessInv settled s) {i : ℕ} {p : CyclePoint} (hp : s.cycles[i]? = some p)
    (hstep : p.InStepWith settled s) :
    ProcessInv settled { s with
      core := (cycleSection s.core p).core
      cycles := advance s.cycles i (cycleSection s.core p).next } := by
  obtain ⟨rfl, hcycles⟩ := hsingle.cycle.eq_singleton hp
  obtain ⟨-, -, hfamily⟩ := cycleSection_frame s.core p
  have hmem (p' : CyclePoint) : p' ∈ advance s.cycles 0 (cycleSection s.core p).next ↔
      p' ∈ (cycleSection s.core p).next := by
    rw [hcycles]
    exact mem_advance_singleton
  rcases process_cycleSection s.core p with
    ⟨plan, emitCode, rfl, hcode, hnext⟩ | ⟨readyCode, rfl, hcode, hnext⟩ |
      ⟨hprocess, hback, hramp⟩
  · constructor
    · intro hhomed
      have haway := hhomed.2 _ ((hmem _).mpr hnext)
      exact absurd haway Bool.false_ne_true
    · intro _
      rw [hcode, family_congr hfamily]
      exact hstep
  · constructor
    · intro hhomed hlook
      rw [hcode, family_congr hfamily]
      exact hstep hhomed.1 hlook
    · rintro ⟨p', hp', hin⟩
      rw [hmem, hnext] at hp'
      obtain rfl := Option.some.inj hp'
      exact absurd hin Bool.false_ne_true
  · refine h.of_same hprocess hfamily ?_ id ?_
    · intro hhomed
      refine ⟨hhomed.1, ?_⟩
      rw [hcycles]
      simpa using hback fun p' hp' => hhomed.2 p' ((hmem p').mpr hp')
    · rintro ⟨p', hp', hin⟩
      refine ⟨p, by simp [hcycles], hramp ⟨p', (hmem p').mp hp', hin⟩⟩

/-! ## Switches -/

/-- A switch that stands between its stores goes on until the second one. -/
theorem lookedAt_of_advance {settled : Bool} {switches : List SwitchPoint} {i : ℕ}
    {p : SwitchPoint} (hp : switches[i]? = some p) {next : Option SwitchPoint}
    (hnext : p.pending = true → ∃ p' ∈ next, p'.pending = true)
    (hlook : LookedAt settled (advance switches i next)) : LookedAt settled switches := by
  intro hsettled q hq
  obtain ⟨j, hj⟩ := List.mem_iff_getElem?.mp hq
  by_cases hij : i = j
  · obtain rfl : p = q := by
      subst hij
      exact Option.some.inj (hp.symm.trans hj)
    by_contra hpending
    obtain ⟨p', hp', hpending'⟩ := hnext (by simpa using hpending)
    obtain rfl := Option.mem_def.mp hp'
    have hmem : p' ∈ switches.set i p' :=
      List.mem_set (List.getElem?_eq_some_iff.mp hp).1 p'
    exact absurd ((hlook hsettled p' hmem).symm.trans hpending') Bool.false_ne_true
  · have hmem : q ∈ advance switches i next := by
      cases next with
      | none => exact List.mem_eraseIdx_iff_getElem?.mpr ⟨j, Ne.symm hij, hj⟩
      | some p' =>
          refine List.mem_iff_getElem?.mpr ⟨j, ?_⟩
          rw [advance, List.getElem?_set_ne hij, hj]
    exact hlook hsettled q hmem

theorem processInv_switch {settled : Bool} {s : Sectioned} (h : ProcessInv settled s) {i : ℕ}
    {p : SwitchPoint} (hp : s.switches[i]? = some p)
    (hstep : p.InStepWith settled s (s.switches.eraseIdx i)) :
    ProcessInv settled { s with
      core := (switchSection s.core p).1
      switches := advance s.switches i (switchSection s.core p).2 } := by
  cases p with
  | select f reset =>
      obtain ⟨hready, hother⟩ := hstep
      constructor
      · intro hhomed hlook
        have hafter : LookedAt settled (advance s.switches i (some (.persist f reset))) := hlook
        have hbefore : LookedAt settled s.switches :=
          lookedAt_of_advance hp (fun hpending => absurd hpending Bool.false_ne_true) hafter
        have hkeeps (hsettled : settled = true) : reset = false :=
          hafter hsettled (.persist f reset)
            (List.mem_set (List.getElem?_eq_some_iff.mp hp).1 _)
        calc s.core.status.process
            = s.core.family.processReady := h.homed hhomed hbefore
          _ = (familyRow f).processReady := (hready hhomed hbefore hkeeps).symm
      · exact hother
  | persist f reset =>
      refine h.of_same rfl rfl id (lookedAt_of_advance hp ?_) id
      intro hpending
      have hreset : reset = true := hpending
      exact ⟨.family, by simp [switchSection, hreset], rfl⟩
  | family =>
      exact h.of_same rfl rfl id (lookedAt_of_advance hp fun _ => ⟨_, rfl, rfl⟩) id
  | reset f =>
      constructor
      · exact hstep.2
      · intro hramping
        exact absurd hramping hstep.1

/-! ## Steps -/

/-- The status is set up for the family that is restored. -/
theorem processInv_boot (settled : Bool) (it : NvsIterator) (nvs : Nvs)
    (taskResults : ℕ → Bool) : ProcessInv settled (.boot it nvs taskResults) := by
  have hfamily : (appMain it nvs taskResults).device.family = restoreOnce nvs := by
    rw [appMain_device]
    exact (nivonaConsumablesInit_frame (Device.powerOn nvs)).1
  have hprocess : (appMain it nvs taskResults).status.process =
      (familyRow (restoreOnce nvs)).processReady := by
    simp only [appMain, nivonaMaintColdStart]
    split <;> rfl
  constructor
  · intro _ _
    change (appMain it nvs taskResults).status.process =
      (appMain it nvs taskResults).family.processReady
    rw [hprocess, Core.family, nivonaFamilyCurrent, hfamily]
  · rintro ⟨p, hmem, -⟩
    exact absurd hmem List.not_mem_nil

/-- One step preserves the invariant. -/
theorem processInv_step {settled : Bool} {s : Sectioned} (hsingle : s.Single)
    (h : ProcessInv settled s) {a : SectionAction} (hstep : CodesInStep settled s a) :
    ProcessInv settled (sectionStep s a) := by
  have hchange := change_sectionStep s a
  generalize sectionStep s a = s' at hchange ⊢
  cases hchange with
  | restart it => exact processInv_boot settled it s.core.device.nvs s.core.taskResults
  | kept a calls hkept hbrew hcycle => exact h.of_same hkept.process hkept.family id id id
  | select ho f reset =>
      refine h.of_same rfl rfl id ?_ id
      intro hlook hsettled p hmem
      exact hlook hsettled p (List.mem_append_left _ hmem)
  | @brew i p hp => exact processInv_brew hsingle h hp (hstep p hp)
  | @cycle i p hp => exact processInv_cycle hsingle h hp (hstep p hp)
  | brewNew i calls hkept hidle hset hcycle =>
      refine h.of_same hkept.process hkept.family ?_ id id
      intro hhomed
      exact absurd (hhomed.1 .entry (by simp)) Bool.false_ne_true
  | cycleNew i calls hkept hidle hset hbrew =>
      refine h.of_same hkept.process hkept.family ?_ id ?_
      · intro hhomed
        exact absurd (hhomed.2 .entry (by simp)) Bool.false_ne_true
      · rintro ⟨p, hmem, hin⟩
        rcases List.mem_append.mp hmem with hold | hnew
        · exact ⟨p, hold, hin⟩
        · obtain rfl := List.mem_singleton.mp hnew
          exact absurd hin Bool.false_ne_true
  | @switch i p hp => exact processInv_switch h hp (hstep p hp)

/-! ## Runs -/

/-- Between tasks every task is back. -/
theorem ProcessInv.matches {settled : Bool} {s : Sectioned} (hsingle : s.Single)
    (h : ProcessInv settled s) : ProcessMatches settled s where
  idle := by
    intro hlook hbrewIdle hcycleIdle
    refine h.homed ?_ hlook
    rw [Homed, hsingle.brew.2 hbrewIdle, hsingle.cycle.2 hcycleIdle]
    simp
  ramp := h.ramp

/-- A run under a guard which, with what the run keeps, puts every step in step. -/
theorem processMatches_run {settled : Bool} {guard : Sectioned → SectionAction → Prop}
    (kept : Sectioned → Prop)
    (hguard : ∀ s a, s.Single → kept s → guard s a →
      CodesInStep settled s a ∧ kept (sectionStep s a))
    (it : NvsIterator) (nvs : Nvs) (taskResults : ℕ → Bool)
    (hboot : kept (.boot it nvs taskResults)) {actions : List SectionAction}
    (hrun : Runs.Guarded sectionStep guard (.boot it nvs taskResults) actions) :
    ∀ before, before <+: actions →
      ProcessMatches settled (Runs.run sectionStep (.boot it nvs taskResults) before) := by
  have hstep (s : Sectioned) (a : SectionAction)
      (h : s.Single ∧ ProcessInv settled s ∧ kept s) (ha : guard s a) :
      (sectionStep s a).Single ∧ ProcessInv settled (sectionStep s a) ∧
        kept (sectionStep s a) := by
    obtain ⟨hsingle, hinv, hkept⟩ := h
    obtain ⟨hin, hkept'⟩ := hguard s a hsingle hkept ha
    exact ⟨hsingle.step a, processInv_step hsingle hinv hin, hkept'⟩
  rintro before ⟨rest, rfl⟩
  obtain ⟨hsingle, hinv, -⟩ := hrun.prefix_of.invariant hstep
    ⟨single_idle, processInv_boot settled it nvs taskResults, hboot⟩
  exact hinv.matches hsingle

/-- In a run in step, the process code of every state says what the machine is doing;
with `settled`, console switches may change the ready code, and the moments between their
stores are left out. -/
theorem processMatches_of_inStep (settled : Bool) (it : NvsIterator) (nvs : Nvs)
    (taskResults : ℕ → Bool) (actions : List SectionAction)
    (hrun : Runs.Guarded sectionStep (CodesInStep settled) (.boot it nvs taskResults) actions) :
    ∀ before, before <+: actions →
      ProcessMatches settled (Runs.run sectionStep (.boot it nvs taskResults) before) :=
  processMatches_run (fun _ => True) (fun _ _ _ _ ha => ⟨ha, trivial⟩) it nvs taskResults trivial
    hrun

/-- A rinse on the 8000 family, with a switch to the 700 family at the touch screen during
its ramp. -/
def rinseWithSwitch : List SectionAction :=
  [.op (.cycleStart .genericClean), .resume 0, .resume 0] ++
    List.replicate 10 (.op (.cycleTask 0)) ++ [.op (.familyUi "700"), .resumeSwitch 0,
      .op (.cycleTask 0), .resumeSwitch 0] ++ List.replicate 130 (.op (.cycleTask 0))

/-- A switch to the 700 family at the console. -/
def consoleSwitch : List SectionAction :=
  .op (.familyCli "700") :: List.replicate 4 (.resumeSwitch 0)

/-- The rinse looks up the ready code at its end; the console resets the status. -/
theorem processMatches_rinseWithSwitch :
    let boot := Sectioned.boot NvsIterator.storageOrder Nvs.empty fun _ => true
    ProcessMatches false (Runs.run sectionStep boot rinseWithSwitch) ∧
      ProcessMatches true (Runs.run sectionStep boot consoleSwitch) :=
  ⟨processMatches_of_inStep _ _ _ _ rinseWithSwitch (by decide +kernel) _ List.prefix_rfl,
    processMatches_of_inStep _ _ _ _ consoleSwitch (by decide +kernel) _ List.prefix_rfl⟩

/-- A switch at the touch screen of an idle machine leaves the old ready code, also once
it is over. -/
theorem process_stale_after_familyUi :
    let s := Runs.run sectionStep
      (.boot NvsIterator.storageOrder Nvs.empty fun _ => true)
      [.op (.familyUi "700"), .resumeSwitch 0, .resumeSwitch 0]
    ¬ProcessMatches false s ∧ ¬ProcessMatches true s := by
  constructor
  · intro h
    exact absurd (h.idle (by decide +kernel) (by decide +kernel) (by decide +kernel))
      (by decide +kernel)
  · intro h
    exact absurd (h.idle (by decide +kernel) (by decide +kernel) (by decide +kernel))
      (by decide +kernel)

-- a cycle looks up the ready code of 8000 and stores it after the console has switched
example :
    let s := Runs.run sectionStep (.boot NvsIterator.storageOrder Nvs.empty fun _ => true)
      ([.op (.cycleStart .filterRemove), .resume 0, .resume 0] ++
        List.replicate 128 (.op (.cycleTask 0)) ++ consoleSwitch ++
        List.replicate 5 (.op (.cycleTask 0)))
    s.core.brew.active = false ∧ s.core.cycle.active = false ∧ s.switches = [] ∧
      s.core.status.process = 3 ∧ s.core.family.processReady = 8 := by
  decide +kernel

/-! ## Without family switches -/

/-- What a brew has taken at its start. -/
def BrewPoint.run? : BrewPoint → Option BrewRun
  | .announce run | .clearProgress run | .clearInfo run | .clearPrompt run
  | .announcePush run | .stage run _ _ | .stageCode run _ _ _ | .tick run _ _ _
  | .progress run _ _ _ | .tickPush run _ _ _ | .ready run | .readyProgress run | .check run
  | .wear run => some run
  | .entry | .family _ | .review | .reviewPush | .cleanup => none

/-- What a cycle holds for its next store fits the family. -/
def CyclePoint.Fits (fam : Family) : CyclePoint → Prop
  | .announce _ emitCode => OtherThan emitCode fam
  | .ready readyCode => readyCode = fam.processReady
  | _ => True

/-- No switch is in progress, and what the tasks hold is of the family. -/
structure Sectioned.Steady (s : Sectioned) : Prop where
  switches : s.switches = []
  brews : ∀ p ∈ s.brews, ∀ run ∈ p.run?, run.readyCode = s.core.family.processReady
  cycles : ∀ p ∈ s.cycles, p.Fits s.core.family

/-- A brew keeps what it has taken at its start. -/
theorem run_brewSection {c : Core} {p p' : BrewPoint} (hnext : (brewSection c p).next = some p')
    {run : BrewRun} (hrun : run ∈ p'.run?) :
    run ∈ p.run? ∨ run.readyCode = c.family.processReady := by
  cases p with
  | family arg =>
      obtain rfl := Option.some.inj hnext
      obtain rfl := Option.some.inj hrun
      exact .inr rfl
  | stage run' i elapsedMs =>
      simp only [brewSection] at hnext
      split at hnext
      · obtain rfl := Option.some.inj hnext
        exact .inl hrun
      · obtain rfl := Option.some.inj hnext
        exact .inl hrun
  | tick run' i stageElapsed elapsedMs =>
      simp only [brewSection] at hnext
      split at hnext
      · obtain rfl := Option.some.inj hnext
        exact .inl hrun
      · split at hnext
        · obtain rfl := Option.some.inj hnext
          exact .inl hrun
        · obtain rfl := Option.some.inj hnext
          exact .inl hrun
  | check run' =>
      simp only [brewSection] at hnext
      split at hnext
      · obtain rfl := Option.some.inj hnext
        exact absurd hrun (by simp [BrewPoint.run?])
      · obtain rfl := Option.some.inj hnext
        exact .inl hrun
  | wear run' =>
      obtain rfl := Option.some.inj hnext
      exact absurd hrun (by simp [BrewPoint.run?])
  | cleanup => exact absurd hnext (by simp [brewSection])
  | _ =>
      obtain rfl := Option.some.inj hnext
      exact .inl hrun

/-- What a cycle looks up fits the family. -/
theorem fits_cycleSection {c : Core} {p p' : CyclePoint}
    (hnext : (cycleSection c p).next = some p') : p'.Fits c.family := by
  cases p with
  | family plan =>
      obtain rfl := Option.some.inj hnext
      exact otherThan_cycleEmitCode c.device.family plan.kind
  | readyFamily =>
      obtain rfl := Option.some.inj hnext
      rfl
  | entry =>
      obtain ⟨plan, hplan, -⟩ := findPlan_isSome c.cycle.kind
      simp only [cycleSection, hplan] at hnext
      obtain rfl := Option.some.inj hnext
      split <;> trivial
  | tick plan elapsed =>
      simp only [cycleSection] at hnext
      split at hnext
      · obtain rfl := Option.some.inj hnext
        trivial
      · obtain rfl := Option.some.inj hnext
        trivial
  | check plan =>
      simp only [cycleSection] at hnext
      obtain rfl := Option.some.inj hnext
      split <;> trivial
  | cleanup => exact absurd hnext (by simp [cycleSection])
  | _ =>
      obtain rfl := Option.some.inj hnext
      trivial

theorem mem_or_of_mem_advance {α : Type} {l : List α} {i : ℕ} {next : Option α} {x : α}
    (h : x ∈ advance l i next) : x ∈ l ∨ next = some x := by
  cases next with
  | none => exact .inl (List.mem_of_mem_eraseIdx h)
  | some y =>
      rcases List.mem_or_eq_of_mem_set h with hold | rfl
      · exact .inl hold
      · exact .inr rfl

/-- A step that begins no switch. -/
theorem Sectioned.Steady.step {s : Sectioned} (h : s.Steady) {a : SectionAction}
    (ha : ∀ o, a = .op o → o.selects = false) : (sectionStep s a).Steady := by
  have hchange := change_sectionStep s a
  generalize sectionStep s a = s' at hchange ⊢
  obtain ⟨hswitches, hbrews, hcycles⟩ := h
  cases hchange with
  | restart it =>
      exact ⟨rfl, fun p hp => absurd hp List.not_mem_nil, fun p hp => absurd hp List.not_mem_nil⟩
  | kept a calls hkept hbrew hcycle =>
      have hfam := family_congr hkept.family
      exact ⟨hswitches, hfam ▸ hbrews, hfam ▸ hcycles⟩
  | @select o ho f reset => exact absurd ((ha o rfl).symm.trans ho) Bool.false_ne_true
  | @brew i p hp =>
      obtain ⟨-, -, hfamily⟩ := brewSection_frame s.core p
      have hfam := family_congr hfamily
      refine ⟨hswitches, fun p' hp' run hrun => ?_, hfam ▸ hcycles⟩
      rw [hfam]
      rcases mem_or_of_mem_advance hp' with hold | hnext
      · exact hbrews p' hold run hrun
      · rcases run_brewSection hnext hrun with hrun' | hready
        · exact hbrews p (List.mem_of_getElem? hp) run hrun'
        · exact hready
  | @cycle i p hp =>
      obtain ⟨-, -, hfamily⟩ := cycleSection_frame s.core p
      have hfam := family_congr hfamily
      refine ⟨hswitches, hfam ▸ hbrews, fun p' hp' => ?_⟩
      rw [hfam]
      rcases mem_or_of_mem_advance hp' with hold | hnext
      · exact hcycles p' hold
      · exact fits_cycleSection hnext
  | brewNew i calls hkept hidle hset hcycle =>
      have hfam := family_congr hkept.family
      refine ⟨hswitches, fun p hp run hrun => ?_, hfam ▸ hcycles⟩
      rw [hfam]
      rcases List.mem_append.mp hp with hold | hnew
      · exact hbrews p hold run hrun
      · obtain rfl := List.mem_singleton.mp hnew
        exact absurd hrun (by simp [BrewPoint.run?])
  | cycleNew i calls hkept hidle hset hbrew =>
      have hfam := family_congr hkept.family
      refine ⟨hswitches, hfam ▸ hbrews, fun p hp => ?_⟩
      rcases List.mem_append.mp hp with hold | hnew
      · rw [hfam]
        exact hcycles p hold
      · obtain rfl := List.mem_singleton.mp hnew
        trivial
  | @switch i p hp => exact absurd hp (by simp [hswitches])

/-- While no switch is in progress and only one of the modules is active, every step is
in step. -/
theorem Sectioned.Steady.codesInStep {s : Sectioned} (h : s.Steady) (hsingle : s.Single)
    (hone : s.core.bothActive = false) (a : SectionAction) : CodesInStep false s a := by
  -- a brew that is there leaves no room for the ramp of a cycle
  have hquiet {p : BrewPoint} (hp : p ∈ s.brews) : ¬Ramping s := by
    rintro ⟨q, hq, -⟩
    have hbrew : s.core.brew.active = true := by
      by_contra hidle
      rw [hsingle.brew.2 (Bool.eq_false_of_not_eq_true hidle)] at hp
      exact absurd hp List.not_mem_nil
    have hcycle : s.core.cycle.active = true := by
      by_contra hidle
      rw [hsingle.cycle.2 (Bool.eq_false_of_not_eq_true hidle)] at hq
      exact absurd hq List.not_mem_nil
    rw [Core.bothActive, hbrew, hcycle] at hone
    exact absurd hone.symm Bool.false_ne_true
  cases a with
  | op o =>
      cases o with
      | brewTask i =>
          intro p hp
          have hmem : p ∈ s.brews := List.mem_of_getElem? hp
          cases p with
          | announce run => exact hquiet hmem
          | stageCode run i elapsedMs sub => exact hquiet hmem
          | ready run => exact ⟨hquiet hmem, fun _ _ => h.brews _ hmem run rfl⟩
          | _ => trivial
      | cycleTask i =>
          intro p hp
          have hfits := h.cycles p (List.mem_of_getElem? hp)
          cases p with
          | announce plan emitCode => exact hfits
          | ready readyCode => exact fun _ _ => hfits
          | _ => trivial
      | _ => trivial
  | resume i => trivial
  | resumeSwitch i =>
      intro p hp
      exact absurd hp (by simp [h.switches])

/-- In a run without family switches in which brews and cycles exclude each other, the
process code of every state says what the machine is doing. -/
theorem processMatches_of_oneFamily (it : NvsIterator) (nvs : Nvs) (taskResults : ℕ → Bool)
    (actions : List SectionAction)
    (hrun : Runs.Guarded sectionStep
      (fun s a => s.core.bothActive = false ∧ ∀ o, a = .op o → o.selects = false)
      (.boot it nvs taskResults) actions) :
    ∀ before, before <+: actions →
      ProcessMatches false (Runs.run sectionStep (.boot it nvs taskResults) before) := by
  refine processMatches_run Sectioned.Steady ?_ it nvs taskResults ?_ hrun
  · rintro s a hsingle hsteady ⟨hone, hselects⟩
    exact ⟨hsteady.codesInStep hsingle hone a, hsteady.step hselects⟩
  · exact ⟨rfl, fun p hp => absurd hp List.not_mem_nil, fun p hp => absurd hp List.not_mem_nil⟩

end Nivona
