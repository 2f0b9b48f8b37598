import NivonaEmulator.MachineRun

/-!
# Brewing and maintenance cycles exclude each other

Each start call peeks at the other module's flag under the other module's lock
and only then sets its own flag under its own lock.  The calls of all tasks are
interleaved here section by section.  The flags exclude each other in every run
in which no call sets its flag between the peek and the section of a call to
the other module.
-/

namespace Nivona

/-! ## Calls in progress -/

/-- Program points of `nivona_brew_start` and `nivona_maint_cycle_start`: one
before each mutex section. -/
inductive StartCall
  | brewEntry (processValue : Int16) (twoCups : Bool)
  /-- before `nivona_maint_cycle_active` -/
  | brewPeek (sel : UInt8) (recipe : Recipe) (twoCups : Bool)
  /-- before `nivona_fsm_get_status` -/
  | brewPrompt (sel : UInt8) (recipe : Recipe) (twoCups : Bool)
  /-- before `nivona_maint_current_is_soft` -/
  | brewSoft (sel : UInt8) (recipe : Recipe) (twoCups : Bool)
  | brewSection (sel : UInt8) (recipe : Recipe) (twoCups : Bool)
  /-- before `nivona_brew_active` -/
  | cyclePeek (kind : CycleKind)
  | cycleSection (kind : CycleKind)
  deriving DecidableEq, Repr

/-- A brew call that has seen no cycle. -/
def StartCall.brewPeeked : StartCall → Bool
  | .brewPrompt .. | .brewSoft .. | .brewSection .. => true
  | _ => false

/-- A cycle call that has seen no brew. -/
def StartCall.cyclePeeked : StartCall → Bool
  | .cycleSection _ => true
  | _ => false

/-- One section of a start call, and where the call stands unless it returns. -/
def startCallStep (c : Core) : StartCall → Core × Option StartCall
  | .brewEntry processValue twoCups =>
      if !c.brew.lockReady then (c, none)
      else match brewResolve c processValue with
        | none => (c, none)
        | some (sel, recipe) => (c, some (.brewPeek sel recipe twoCups))
  | .brewPeek sel recipe twoCups =>
      if nivonaMaintCycleActive c then (c, none)
      else (c, some (.brewPrompt sel recipe twoCups))
  | .brewPrompt sel recipe twoCups =>
      if c.status.manipulation ≠ MANIP_NONE then (c, some (.brewSoft sel recipe twoCups))
      else (c, some (.brewSection sel recipe twoCups))
  | .brewSoft sel recipe twoCups =>
      if nivonaMaintCurrentIsSoft c then (c, some (.brewSection sel recipe twoCups))
      else (c, none)
  | .brewSection sel recipe twoCups => ((brewCommit c sel recipe twoCups).1, none)
  | .cyclePeek kind =>
      if !c.cycle.lockReady then (c, none)
      else if nivonaBrewActive c then (c, none)
      else match findPlan kind with
        | none => (c, none)
        | some _ => (c, some (.cycleSection kind))
  | .cycleSection kind => ((cycleCommit c kind).1, none)

/-- The core with the start calls that have not returned yet. -/
structure Concurrent where
  core : Core
  calls : List StartCall

/-- Something happens to the core, or a call in progress runs its next section. -/
inductive Action
  | op (o : Op)
  | resume (i : ℕ)

/-- A start operation only begins its call; a restart forgets all calls. -/
def concurrentStep (s : Concurrent) : Action → Concurrent
  | .op (.brewStart processValue twoCups) =>
      { s with calls := s.calls ++ [.brewEntry processValue twoCups] }
  | .op (.cycleStart kind) => { s with calls := s.calls ++ [.cyclePeek kind] }
  | .op (.reboot it) => { core := reboot it s.core, calls := [] }
  | .op o => { s with core := coreStep s.core o }
  | .resume i =>
      match s.calls[i]? with
      | none => s
      | some call =>
          match startCallStep s.core call with
          | (core, some call') => { core := core, calls := s.calls.set i call' }
          | (core, none) => { core := core, calls := s.calls.eraseIdx i }

/-- The state after `app_main`. -/
def Concurrent.boot (it : NvsIterator) (nvs : Nvs) (taskResults : ℕ → Bool) : Concurrent :=
  { core := appMain it nvs taskResults, calls := [] }

/-- Both `s_active` flags are set. -/
def Core.bothActive (c : Core) : Bool := c.brew.active && c.cycle.active

/-! ## A call that is not interrupted -/

/-- Run the sections of a call one after the other. -/
def runStartCall (c : Core) (call : StartCall) : ℕ → Core
  | 0 => c
  | n + 1 =>
      match startCallStep c call with
      | (c, some call') => runStartCall c call' n
      | (c, none) => c

/-- Without interleaving the sections make up the brew call. -/
theorem runStartCall_brewEntry (c : Core) (processValue : Int16) (twoCups : Bool) :
    runStartCall c (.brewEntry processValue twoCups) 5 =
      (nivonaBrewStart c processValue twoCups).1 := by
  rw [nivonaBrewStart]
  by_cases hlock : c.brew.lockReady
  · rcases hres : brewResolve c processValue with _ | ⟨sel, recipe⟩
    · simp [runStartCall, startCallStep, hlock, hres]
    · by_cases hcycle : nivonaMaintCycleActive c
      · simp [runStartCall, startCallStep, hlock, hres, hcycle]
      · by_cases hnone : c.status.manipulation = MANIP_NONE
        · simp [runStartCall, startCallStep, hlock, hres, hcycle, hnone, brewPromptRefuses]
        · by_cases hsoft : nivonaMaintCurrentIsSoft c
          · simp [runStartCall, startCallStep, hlock, hres, hcycle, hnone, hsoft,
              brewPromptRefuses]
          · simp [runStartCall, startCallStep, hlock, hres, hcycle, hnone, hsoft,
              brewPromptRefuses]
  · simp [runStartCall, startCallStep, hlock]

/-- Without interleaving the sections make up the cycle call. -/
theorem runStartCall_cyclePeek (c : Core) (kind : CycleKind) :
    runStartCall c (.cyclePeek kind) 2 = (nivonaMaintCycleStart c kind).1 := by
  obtain ⟨plan, hplan, -⟩ := findPlan_isSome kind
  rw [nivonaMaintCycleStart]
  by_cases hlock : c.cycle.lockReady
  · by_cases hbrew : nivonaBrewActive c
    · simp [runStartCall, startCallStep, hlock, hbrew]
    · simp [runStartCall, startCallStep, hlock, hbrew, hplan]
  · simp [runStartCall, startCallStep, hlock]

/-! ## What a section does -/

/-- Only the check-and-set sections change anything. -/
theorem startCallStep_core {c : Core} {call : StartCall}
    (hbrew : ∀ sel recipe twoCups, call ≠ .brewSection sel recipe twoCups)
    (hcycle : ∀ kind, call ≠ .cycleSection kind) : (startCallStep c call).1 = c := by
  cases call with
  | brewEntry processValue twoCups =>
      simp only [startCallStep]
      split
      · rfl
      · split <;> rfl
  | brewPeek sel recipe twoCups => simp only [startCallStep]; split <;> rfl
  | brewPrompt sel recipe twoCups => simp only [startCallStep]; split <;> rfl
  | brewSoft sel recipe twoCups => simp only [startCallStep]; split <;> rfl
  | brewSection sel recipe twoCups => exact absurd rfl (hbrew sel recipe twoCups)
  | cyclePeek kind =>
      simp only [startCallStep]
      split
      · rfl
      · split
        · rfl
        · split <;> rfl
  | cycleSection kind => exact absurd rfl (hcycle kind)

/-- Where a start call goes from each section, unless it returns. -/
inductive StartCall.Next (c : Core) : StartCall → StartCall → Prop
  | resolved {processValue : Int16} {sel : UInt8} {recipe : Recipe} (twoCups : Bool)
      (hres : brewResolve c processValue = some (sel, recipe)) :
      Next c (.brewEntry processValue twoCups) (.brewPeek sel recipe twoCups)
  | noCycle (sel : UInt8) (recipe : Recipe) (twoCups : Bool)
      (hidle : nivonaMaintCycleActive c = false) :
      Next c (.brewPeek sel recipe twoCups) (.brewPrompt sel recipe twoCups)
  | prompt (sel : UInt8) (recipe : Recipe) (twoCups : Bool)
      (hprompt : c.status.manipulation ≠ MANIP_NONE) :
      Next c (.brewPrompt sel recipe twoCups) (.brewSoft sel recipe twoCups)
  | noPrompt (sel : UInt8) (recipe : Recipe) (twoCups : Bool)
      (hprompt : c.status.manipulation = MANIP_NONE) :
      Next c (.brewPrompt sel recipe twoCups) (.brewSection sel recipe twoCups)
  | soft (sel : UInt8) (recipe : Recipe) (twoCups : Bool)
      (hsoft : nivonaMaintCurrentIsSoft c = true) :
      Next c (.brewSoft sel recipe twoCups) (.brewSection sel recipe twoCups)
  | noBrew (kind : CycleKind) (hidle : nivonaBrewActive c = false) :
      Next c (.cyclePeek kind) (.cycleSection kind)

theorem StartCall.next_of_step {c : Core} {call call' : StartCall}
    (h : (startCallStep c call).2 = some call') : call.Next c call' := by
  cases call with
  | brewEntry processValue twoCups =>
      simp only [startCallStep] at h
      split at h
      · exact absurd h (by simp)
      · split at h
        · exact absurd h (by simp)
        · rename_i hres
          obtain rfl := Option.some.inj h
          exact .resolved twoCups hres
  | brewPeek sel recipe twoCups =>
      simp only [startCallStep] at h
      split at h
      · exact absurd h (by simp)
      · rename_i hactive
        obtain rfl := Option.some.inj h
        exact .noCycle sel recipe twoCups (Bool.eq_false_of_not_eq_true hactive)
  | brewPrompt sel recipe twoCups =>
      simp only [startCallStep] at h
      split at h
      · rename_i hprompt
        obtain rfl := Option.some.inj h
        exact .prompt sel recipe twoCups hprompt
      · rename_i hprompt
        obtain rfl := Option.some.inj h
        exact .noPrompt sel recipe twoCups (not_not.mp hprompt)
  | brewSoft sel recipe twoCups =>
      simp only [startCallStep] at h
      split at h
      · rename_i hsoft
        obtain rfl := Option.some.inj h
        exact .soft sel recipe twoCups hsoft
      · exact absurd h (by simp)
  | brewSection sel recipe twoCups => exact absurd h (by simp [startCallStep])
  | cyclePeek kind =>
      simp only [startCallStep] at h
      split at h
      · exact absurd h (by simp)
      · split at h
        · exact absurd h (by simp)
        · rename_i hactive
          split at h
          · exact absurd h (by simp)
          · obtain rfl := Option.some.inj h
            exact .noBrew kind (Bool.eq_false_of_not_eq_true hactive)
  | cycleSection kind => exact absurd h (by simp [startCallStep])

/-- A brew call gets past its peek only while no cycle is active. -/
theorem StartCall.Next.brewPeeked {c : Core} {call call' : StartCall} (h : call.Next c call')
    (hpeeked : call'.brewPeeked = true) :
    call.brewPeeked = true ∨ nivonaMaintCycleActive c = false := by
  cases h with
  | noCycle sel recipe twoCups hidle => exact .inr hidle
  | prompt sel recipe twoCups hprompt => exact .inl rfl
  | noPrompt sel recipe twoCups hprompt => exact .inl rfl
  | soft sel recipe twoCups hsoft => exact .inl rfl
  | _ => exact absurd hpeeked Bool.false_ne_true

/-- A cycle call gets past its peek only while no brew is active. -/
theorem StartCall.Next.cyclePeeked {c : Core} {call call' : StartCall} (h : call.Next c call')
    (hpeeked : call'.cyclePeeked = true) : nivonaBrewActive c = false := by
  cases h with
  | noBrew kind hidle => exact hidle
  | _ => exact absurd hpeeked Bool.false_ne_true

/-- Sections a call has left at most. -/
def StartCall.sectionsLeft : StartCall → ℕ
  | .brewEntry .. => 5
  | .brewPeek .. => 4
  | .brewPrompt .. => 3
  | .brewSoft .. => 2
  | .brewSection .. => 1
  | .cyclePeek _ => 2
  | .cycleSection _ => 1

theorem StartCall.Next.sectionsLeft_lt {c : Core} {call call' : StartCall}
    (h : call.Next c call') : call'.sectionsLeft < call.sectionsLeft := by
  cases h <;> simp [StartCall.sectionsLeft]

theorem resume_core {s : Concurrent} {i : ℕ} {call : StartCall} (h : s.calls[i]? = some call) :
    (concurrentStep s (.resume i)).core = (startCallStep s.core call).1 := by
  simp only [concurrentStep, h]
  rcases startCallStep s.core call with ⟨core, - | call'⟩ <;> rfl

/-- Begins a start call, which does nothing before its first section. -/
def Op.starts : Op → Bool
  | .brewStart .. | .cycleStart _ => true
  | _ => false

/-- A step of the system leaves the core alone, or is an operation of the core,
or a check-and-set section. -/
theorem concurrentStep_core_cases (s : Concurrent) (a : Action) :
    ((concurrentStep s a).core = s.core ∧ ∀ o, a = .op o → o.starts = true) ∨
    (∃ o, a = .op o ∧ o.starts = false ∧ (concurrentStep s a).core = coreStep s.core o) ∨
    (∃ i sel recipe twoCups, a = .resume i ∧
      s.calls[i]? = some (.brewSection sel recipe twoCups) ∧
      (concurrentStep s a).core = (brewCommit s.core sel recipe twoCups).1) ∨
    ∃ i kind, a = .resume i ∧ s.calls[i]? = some (.cycleSection kind) ∧
      (concurrentStep s a).core = (cycleCommit s.core kind).1 := by
  cases a with
  | op o =>
      cases o with
      | brewStart processValue twoCups => exact .inl ⟨rfl, by rintro o ⟨rfl⟩; rfl⟩
      | cycleStart kind => exact .inl ⟨rfl, by rintro o ⟨rfl⟩; rfl⟩
      | _ => exact .inr (.inl ⟨_, rfl, rfl, rfl⟩)
  | resume i =>
      rcases hcall : s.calls[i]? with _ | call
      · exact .inl ⟨by simp [concurrentStep, hcall], by simp⟩
      · rw [resume_core hcall]
        cases call with
        | brewSection sel recipe twoCups =>
            exact .inr (.inr (.inl ⟨i, sel, recipe, twoCups, rfl, hcall, rfl⟩))
        | cycleSection kind => exact .inr (.inr (.inr ⟨i, kind, rfl, hcall, rfl⟩))
        | _ => exact .inl ⟨startCallStep_core (by simp) (by simp), by simp⟩

/-! ## The invariant -/

/-- The flags exclude each other, and while one is set no call to the other
module is past its peek. -/
structure Exclusive (s : Concurrent) : Prop where
  brewLock : s.core.brew.lockReady = true
  cycleLock : s.core.cycle.lockReady = true
  not_both : ¬(s.core.brew.active = true ∧ s.core.cycle.active = true)
  brewPeeked : s.core.cycle.active = true → ∀ call ∈ s.calls, call.brewPeeked = false
  cyclePeeked : s.core.brew.active = true → ∀ call ∈ s.calls, call.cyclePeeked = false

theorem exclusive_boot (it : NvsIterator) (nvs : Nvs) (taskResults : ℕ → Bool) :
    Exclusive (Concurrent.boot it nvs taskResults) := by
  have hbrew := appMain_brew it nvs taskResults
  have hcycle := appMain_cycle it nvs taskResults
  constructor <;> simp [Concurrent.boot, hbrew, hcycle, Core.powerOn]

/-- A flag may fall, and a call may move on as far as the flags allow. -/
theorem Exclusive.mono {s : Concurrent} (h : Exclusive s) {core : Core}
    {calls : List StartCall}
    (hbrewLock : core.brew.lockReady = s.core.brew.lockReady)
    (hcycleLock : core.cycle.lockReady = s.core.cycle.lockReady)
    (hbrew : core.brew.active = true → s.core.brew.active = true)
    (hcycle : core.cycle.active = true → s.core.cycle.active = true)
    (hcalls : ∀ call ∈ calls, call ∈ s.calls ∨
      (call.brewPeeked = true → s.core.cycle.active = false) ∧
      (call.cyclePeeked = true → s.core.brew.active = false)) :
    Exclusive { core := core, calls := calls } where
  brewLock := hbrewLock.trans h.brewLock
  cycleLock := hcycleLock.trans h.cycleLock
  not_both := fun hboth => h.not_both ⟨hbrew hboth.1, hcycle hboth.2⟩
  brewPeeked := by
    intro hactive call hmem
    rcases hcalls call hmem with hold | hnew
    · exact h.brewPeeked (hcycle hactive) call hold
    · by_contra hpeeked
      rw [hcycle hactive] at hnew
      exact absurd (hnew.1 (by simpa using hpeeked)) (by simp)
  cyclePeeked := by
    intro hactive call hmem
    rcases hcalls call hmem with hold | hnew
    · exact h.cyclePeeked (hbrew hactive) call hold
    · by_contra hpeeked
      rw [hbrew hactive] at hnew
      exact absurd (hnew.2 (by simpa using hpeeked)) (by simp)

/-! ## Runs without overlap -/

/-- Would the next section of the call set its module's flag? -/
def StartCall.sets (c : Core) : StartCall → Bool
  | .brewSection .. => !c.brew.active && c.taskResults 0
  | .cycleSection _ => !c.cycle.active && c.taskResults 0
  | _ => false

/-- A call to the other module that is between its peek and its section. -/
def StartCall.rival : StartCall → StartCall → Bool
  | .brewSection .., other => other.cyclePeeked
  | .cycleSection _, other => other.brewPeeked
  | _, _ => false

/-- No call sets its flag while a call to the other module is between its peek
and its section. -/
def NoOverlap (s : Concurrent) : Action → Prop
  | .op _ => True
  | .resume i =>
      ∀ call ∈ s.calls[i]?, call.sets s.core = true →
        ∀ other ∈ s.calls, call.rival other = false

instance (s : Concurrent) : (a : Action) → Decidable (NoOverlap s a)
  | .op _ => inferInstanceAs (Decidable True)
  | .resume i => inferInstanceAs (Decidable (∀ call ∈ s.calls[i]?, call.sets s.core = true →
      ∀ other ∈ s.calls, call.rival other = false))

/-- The section of a brew call that overlaps no cycle call. -/
theorem exclusive_brewSection {s : Concurrent} (h : Exclusive s) {i : ℕ} {sel : UInt8}
    {recipe : Recipe} {twoCups : Bool}
    (hcall : s.calls[i]? = some (.brewSection sel recipe twoCups))
    (hguard : NoOverlap s (.resume i)) :
    Exclusive
      { core := (brewCommit s.core sel recipe twoCups).1, calls := s.calls.eraseIdx i } := by
  have hcalls : ∀ call ∈ s.calls.eraseIdx i, call ∈ s.calls :=
    fun call hmem => List.mem_of_mem_eraseIdx hmem
  have hidle : s.core.cycle.active ≠ true := fun hactive =>
    absurd (h.brewPeeked hactive _ (List.mem_of_getElem? hcall)) (by simp [StartCall.brewPeeked])
  rcases brewCommit_cases s.core sel recipe twoCups with
    ⟨-, he⟩ | ⟨-, -, brew, he, hlock, hoff, -⟩ | ⟨hoff, htask, brew, he, hlock, -, -⟩
  · rw [he]
    exact h.mono rfl rfl id id fun call hmem => .inl (hcalls call hmem)
  · rw [he]
    exact h.mono hlock rfl (fun hon => absurd (hoff.symm.trans hon) Bool.false_ne_true) id
      fun call hmem => .inl (hcalls call hmem)
  · rw [he]
    exact
      { brewLock := hlock.trans h.brewLock
        cycleLock := h.cycleLock
        not_both := fun hboth => hidle hboth.2
        brewPeeked := fun hactive => absurd hactive hidle
        cyclePeeked := fun _ call hmem =>
          hguard _ hcall (by simp [StartCall.sets, hoff, htask]) call (hcalls call hmem) }

/-- The section of a cycle call that overlaps no brew call. -/
theorem exclusive_cycleSection {s : Concurrent} (h : Exclusive s) {i : ℕ} {kind : CycleKind}
    (hcall : s.calls[i]? = some (.cycleSection kind))
    (hguard : NoOverlap s (.resume i)) :
    Exclusive { core := (cycleCommit s.core kind).1, calls := s.calls.eraseIdx i } := by
  have hcalls : ∀ call ∈ s.calls.eraseIdx i, call ∈ s.calls :=
    fun call hmem => List.mem_of_mem_eraseIdx hmem
  have hidle : s.core.brew.active ≠ true := fun hactive =>
    absurd (h.cyclePeeked hactive _ (List.mem_of_getElem? hcall)) (by simp [StartCall.cyclePeeked])
  rcases cycleCommit_cases s.core kind with
    ⟨-, he⟩ | ⟨-, -, cycle, he, hlock, hoff, -⟩ | ⟨hoff, htask, cycle, he, hlock, -, -⟩
  · rw [he]
    exact h.mono rfl rfl id id fun call hmem => .inl (hcalls call hmem)
  · rw [he]
    exact h.mono rfl hlock id (fun hon => absurd (hoff.symm.trans hon) Bool.false_ne_true)
      fun call hmem => .inl (hcalls call hmem)
  · rw [he]
    exact
      { brewLock := h.brewLock
        cycleLock := hlock.trans h.cycleLock
        not_both := fun hboth => hidle hboth.1
        brewPeeked := fun _ call hmem =>
          hguard _ hcall (by simp [StartCall.sets, hoff, htask]) call (hcalls call hmem)
        cyclePeeked := fun hactive => absurd hactive hidle }

/-- A section before the last one. -/
theorem exclusive_otherSection {s : Concurrent} (h : Exclusive s) {i : ℕ} {call : StartCall}
    (hcall : s.calls[i]? = some call)
    (hbrew : ∀ sel recipe twoCups, call ≠ .brewSection sel recipe twoCups)
    (hcycle : ∀ kind, call ≠ .cycleSection kind) :
    Exclusive (concurrentStep s (.resume i)) := by
  have hcore := startCallStep_core (c := s.core) hbrew hcycle
  simp only [concurrentStep, hcall]
  rcases hstep : startCallStep s.core call with ⟨core, - | call'⟩
  · rw [hstep] at hcore
    obtain rfl := hcore
    exact h.mono rfl rfl id id fun _ hmem => .inl (List.mem_of_mem_eraseIdx hmem)
  · have hmove : call.Next s.core call' := StartCall.next_of_step (by rw [hstep])
    rw [hstep] at hcore
    obtain rfl := hcore
    apply h.mono rfl rfl id id
    intro x hmem
    rcases List.mem_or_eq_of_mem_set hmem with hold | rfl
    · exact .inl hold
    · right
      constructor
      · intro hx
        rcases hmove.brewPeeked hx with hcallPeeked | hidle
        · -- a call that was past its peek before keeps the cycle module idle
          by_contra hactive
          have hmem := List.mem_of_getElem? hcall
          have := h.brewPeeked (by simpa using hactive) call hmem
          exact absurd (this.symm.trans hcallPeeked) Bool.false_ne_true
        · simpa [nivonaMaintCycleActive, h.cycleLock] using hidle
      · intro hx
        simpa [nivonaBrewActive, h.brewLock] using hmove.cyclePeeked hx

/-- One step preserves the invariant. -/
theorem exclusive_step (s : Concurrent) (a : Action) (h : Exclusive s) (hguard : NoOverlap s a) :
    Exclusive (concurrentStep s a) := by
  have hfresh {s' : Concurrent} (h' : Exclusive s') {call : StartCall}
      (hb : call.brewPeeked = false) (hc : call.cyclePeeked = false) :
      Exclusive { s' with calls := s'.calls ++ [call] } := by
    apply h'.mono rfl rfl id id
    intro x hmem
    rcases List.mem_append.mp hmem with hold | hnew
    · exact .inl hold
    · obtain rfl := List.mem_singleton.mp hnew
      exact .inr ⟨by simp [hb], by simp [hc]⟩
  have hquiet {o : Op} (ho : o.quiet = true) :
      Exclusive { s with core := coreStep s.core o } := by
    obtain ⟨hb, hc⟩ := coreStep_quiet s.core ho
    exact h.mono (by rw [hb]) (by rw [hc]) (by rw [hb]; exact id) (by rw [hc]; exact id)
      fun _ hmem => .inl hmem
  cases a with
  | op o =>
      cases o with
      | reboot it => exact exclusive_boot it s.core.device.nvs s.core.taskResults
      | brewStart processValue twoCups => exact hfresh h rfl rfl
      | cycleStart kind => exact hfresh h rfl rfl
      | brewCancel =>
          obtain ⟨cancel, he⟩ := nivonaBrewCancel_frame s.core
          simp only [concurrentStep, coreStep, he]
          exact h.mono rfl rfl id id fun _ hmem => .inl hmem
      | cycleCancel =>
          obtain ⟨cancel, he⟩ := nivonaMaintCycleCancel_frame s.core
          simp only [concurrentStep, coreStep, he]
          exact h.mono rfl rfl id id fun _ hmem => .inl hmem
      | brewTask i =>
          have hcycle := brewTask_cycle s.core i
          exact h.mono (brewTask_lockReady _ _) (congrArg _ hcycle) active_of_brewTask
            (fun hon => by rwa [← hcycle]) fun _ hmem => .inl hmem
      | cycleTask i =>
          have hbrew := cycleTask_brew s.core i
          exact h.mono (congrArg _ hbrew) (cycleTask_lockReady _ _) (fun hon => by rwa [← hbrew])
            active_of_cycleTask fun _ hmem => .inl hmem
      | _ => exact hquiet rfl
  | resume i =>
      rcases hcall : s.calls[i]? with _ | call
      · simpa [concurrentStep, hcall] using h
      · cases call with
        | brewSection sel recipe twoCups =>
            simp only [concurrentStep, hcall, startCallStep]
            exact exclusive_brewSection h hcall hguard
        | cycleSection kind =>
            simp only [concurrentStep, hcall, startCallStep]
            exact exclusive_cycleSection h hcall hguard
        | _ => exact exclusive_otherSection h hcall (by simp) (by simp)

/-! ## The result -/

/-- In a run in which no calls overlap the two flags are never set together. -/
theorem never_bothActive_of_noOverlap (it : NvsIterator) (nvs : Nvs) (taskResults : ℕ → Bool)
    (actions : List Action)
    (hrun : Runs.Guarded concurrentStep NoOverlap (Concurrent.boot it nvs taskResults) actions) :
    ∀ before, before <+: actions →
      (Runs.run concurrentStep (Concurrent.boot it nvs taskResults) before).core.bothActive =
        false := by
  rintro before ⟨rest, rfl⟩
  have hinv := hrun.prefix_of.invariant exclusive_step (exclusive_boot it nvs taskResults)
  simpa [Core.bothActive] using hinv.not_both

/-- A cycle runs, and a brew call that comes later is refused. -/
theorem never_bothActive_cycle_then_brew :
    (Runs.run concurrentStep
      (Concurrent.boot NvsIterator.storageOrder Nvs.empty fun _ => true)
      [.op (.cycleStart .genericClean), .resume 0, .resume 0,
        .op (.brewStart 0 false), .resume 0, .resume 0,
        .op (.cycleTask 0)]).core.bothActive = false :=
  never_bothActive_of_noOverlap _ _ _ _ (by decide) _ List.prefix_rfl

/-- Two sections that overlap set both flags, whichever comes first. -/
theorem bothActive_of_sections {c : Core} (sel : UInt8) (recipe : Recipe) (twoCups : Bool)
    (kind : CycleKind) (hbrew : c.brew.active = false) (hcycle : c.cycle.active = false)
    (hfirst : c.taskResults 0 = true) (hsecond : c.taskResults 1 = true) :
    (cycleCommit (brewCommit c sel recipe twoCups).1 kind).1.bothActive = true ∧
      (brewCommit (cycleCommit c kind).1 sel recipe twoCups).1.bothActive = true := by
  simp [Core.bothActive, brewCommit, cycleCommit, Core.xTaskCreate, hbrew, hcycle, hfirst,
    hsecond]

/-- A brew call and a cycle call that both peek before either sets its flag. -/
theorem bothActive_brew_and_cycle :
    (Runs.run concurrentStep
      (Concurrent.boot NvsIterator.storageOrder Nvs.empty fun _ => true)
      [.op (.brewStart 0 false), .op (.cycleStart .genericClean),
        .resume 0, .resume 0, .resume 0, .resume 0, .resume 1,
        .resume 0, .resume 0]).core.bothActive = true := by
  decide

/-! ## Calls that are not interrupted -/

/-- A start call that runs as a whole keeps the flags apart. -/
theorem exclusive_coreStep (c : Core) (op : Op) (h : Exclusive { core := c, calls := [] }) :
    Exclusive { core := coreStep c op, calls := [] } := by
  have hcommit (call : StartCall)
      (hb : call.brewPeeked = true → c.cycle.active = false)
      (hc : call.cyclePeeked = true → c.brew.active = false) :
      Exclusive { core := c, calls := [call] } := by
    apply h.mono rfl rfl id id
    intro x hx
    obtain rfl := List.mem_singleton.mp hx
    exact .inr ⟨hb, hc⟩
  have hother {o : Op}
      (ho : concurrentStep { core := c, calls := [] } (.op o) =
        { core := coreStep c o, calls := [] }) :
      Exclusive { core := coreStep c o, calls := [] } := by
    rw [← ho]
    exact exclusive_step _ (.op o) h trivial
  cases op with
  | brewStart processValue twoCups =>
      simp only [coreStep]
      rcases nivonaBrewStart_cases c processValue twoCups with
        he | ⟨-, hcycle, sel, recipe, he⟩
      · rwa [he]
      · have hlock : c.cycle.lockReady = true := h.cycleLock
        have hidle : c.cycle.active = false := by
          simpa [nivonaMaintCycleActive, hlock] using hcycle
        rw [he]
        exact exclusive_brewSection (i := 0)
          (hcommit (.brewSection sel recipe twoCups) (fun _ => hidle)
            (fun hc => absurd hc Bool.false_ne_true)) rfl
          (by simp [NoOverlap, StartCall.rival, StartCall.cyclePeeked])
  | cycleStart kind =>
      simp only [coreStep]
      rcases nivonaMaintCycleStart_cases c kind with he | ⟨hbrew, he⟩
      · rwa [he]
      · have hlock : c.brew.lockReady = true := h.brewLock
        have hidle : c.brew.active = false := by
          simpa [nivonaBrewActive, hlock] using hbrew
        rw [he]
        exact exclusive_cycleSection (i := 0)
          (hcommit (.cycleSection kind) (fun hb => absurd hb Bool.false_ne_true)
            (fun _ => hidle)) rfl
          (by simp [NoOverlap, StartCall.rival, StartCall.brewPeeked])
  | _ => exact hother rfl

/-- A call that is resumed without interruption returns. -/
theorem run_resume (n : ℕ) (c : Core) (call : StartCall) (hn : call.sectionsLeft ≤ n) :
    Runs.run concurrentStep { core := c, calls := [call] } (List.replicate n (.resume 0)) =
      { core := runStartCall c call n, calls := [] } := by
  have hidle (n : ℕ) (c : Core) :
      Runs.run concurrentStep { core := c, calls := [] } (List.replicate n (.resume 0)) =
        { core := c, calls := [] } := by
    induction n with
    | zero => rfl
    | succ n ih => rw [List.replicate_succ, Runs.run_cons]; exact ih
  induction n generalizing c call with
  | zero => exact absurd hn (by cases call <;> simp [StartCall.sectionsLeft])
  | succ n ih =>
      have hstep : concurrentStep { core := c, calls := [call] } (.resume 0) =
          match startCallStep c call with
          | (core, some call') => { core := core, calls := [call'] }
          | (core, none) => { core := core, calls := [] } := rfl
      rw [List.replicate_succ, Runs.run_cons, hstep, runStartCall]
      rcases hnext : startCallStep c call with ⟨core, - | call'⟩
      · exact hidle n core
      · have hlt := (StartCall.next_of_step (congrArg Prod.snd hnext)).sectionsLeft_lt
        exact ih core call' (by omega)

/-- An operation of the core is a run of the interleaved system. -/
theorem exists_concurrent_run (c : Core) (op : Op) :
    ∃ actions, Runs.run concurrentStep { core := c, calls := [] } actions =
      { core := coreStep c op, calls := [] } := by
  have hother {o : Op}
      (ho : concurrentStep { core := c, calls := [] } (.op o) =
        { core := coreStep c o, calls := [] }) :
      ∃ actions, Runs.run concurrentStep { core := c, calls := [] } actions =
        { core := coreStep c o, calls := [] } :=
    ⟨[.op o], ho⟩
  cases op with
  | brewStart processValue twoCups =>
      have hrun := run_resume 5 c (.brewEntry processValue twoCups) (Nat.le_refl 5)
      rw [runStartCall_brewEntry] at hrun
      exact ⟨.op (.brewStart processValue twoCups) :: List.replicate 5 (.resume 0), hrun⟩
  | cycleStart kind =>
      have hrun := run_resume 2 c (.cyclePeek kind) (Nat.le_refl 2)
      rw [runStartCall_cyclePeek] at hrun
      exact ⟨.op (.cycleStart kind) :: List.replicate 2 (.resume 0), hrun⟩
  | _ => exact hother rfl

/-- The cores that interleaved calls, tasks and operations lead to after a boot. -/
def CoreReachable (c : Core) : Prop :=
  ∃ it nvs taskResults actions,
    (Runs.run concurrentStep (Concurrent.boot it nvs taskResults) actions).core = c

/-- What every operation of the core preserves holds of the core of a machine in any run. -/
theorem core_invariant {P : Core → Prop} (hstep : ∀ c op, P c → P (coreStep c op))
    (env : Environment) (nvs : Nvs) (hboot : P (Machine.boot env nvs).core)
    (events : List Event) : P (Runs.run machineStep (Machine.boot env nvs) events).core := by
  have hrun : Runs.Guarded machineStep (EventGuard fun _ _ => True) (Machine.boot env nvs)
      events := by
    apply Runs.guarded_of_forall _
    intro e _ m
    cases e <;> trivial
  have hsim : Runs.Simulates Machine.core machineStep (EventGuard fun _ _ => True) coreStep
      fun _ _ => True :=
    simulates_core fun _ _ _ => trivial
  exact hsim.invariant (P := P) (fun c op h _ => hstep c op h) hrun hboot

/-- The core of a machine in any run is one of them. -/
theorem coreReachable_machine (env : Environment) (nvs : Nvs) (events : List Event) :
    CoreReachable (Runs.run machineStep (Machine.boot env nvs) events).core := by
  have hinv := core_invariant (P := fun c => ∃ actions, Runs.run concurrentStep
      (Concurrent.boot env.iterator nvs env.taskResults) actions = { core := c, calls := [] })
    ?_ env nvs ⟨[], rfl⟩ events
  · obtain ⟨actions, hactions⟩ := hinv
    exact ⟨_, _, _, actions, congrArg Concurrent.core hactions⟩
  · rintro c op ⟨actions, hactions⟩
    obtain ⟨more, hmore⟩ := exists_concurrent_run c op
    exact ⟨actions ++ more, by rw [Runs.run_append, hactions, hmore]⟩

/-- On a machine whose start calls run one after the other the flags are never
set together, whatever its peers send. -/
theorem not_bothActive_machine (env : Environment) (nvs : Nvs) (events : List Event) :
    (Runs.run machineStep (Machine.boot env nvs) events).core.bothActive = false := by
  have hinv := core_invariant (P := fun c => Exclusive { core := c, calls := [] })
    (fun c op h => exclusive_coreStep c op h) env nvs
    (exclusive_boot env.iterator nvs env.taskResults) events
  simpa [Core.bothActive] using hinv.not_both

end Nivona
