import NivonaEmulator.TaskLives
import NivonaEmulator.WriteEffect

/-!
# When a brew request is accepted

The handler of the brew request and the brew start it calls refuse for seven
reasons.  Together they decide exactly which requests are acknowledged, in
every state a run can lead to, and a refusal leaves everything as it was.
-/

namespace Nivona

/-- The request to brew. -/
def DispatchedRequest.he (payload : List UInt8) : DispatchedRequest := ⟨CMD_START_PROCESS, payload⟩

/-- The request is answered by a NACK. -/
def Nacked (m : Machine) (r : DispatchedRequest) : Prop :=
  m.link.Answers (serve m r).link CMD_NACK false []

/-- What a brew request has to meet; missing bytes count as 0. -/
structure HeAccepts (m : Machine) (payload : List UInt8) : Prop where
  mode : payload.getD 1 0 = m.core.family.brewCommandMode
  flags : payload.getD 5 0 = 0 ∨ payload.getD 5 0 = 1
  recipe : ∃ r ∈ m.core.family.recipes, r.selector = payload.getD 3 0
  noCycle : m.core.cycle.active = false
  prompt : m.core.status.manipulation = MANIP_NONE ∨ nivonaMaintCurrentIsSoft m.core = true
  noBrew : m.core.brew.active = false
  created : m.core.taskResults 0 = true

/-- The brew of the request is the only one there is; nothing else has changed. -/
def HeBrews (m : Machine) (payload : List UInt8) : Prop :=
  ∃ recipe, nivonaFamilyRecipeBySelector m.core.family (payload.getD 3 0) = some recipe ∧
    (serve m (.he payload)).core = { m.core.xTaskCreate.2 with
      brew :=
        { lockReady := true, active := true, cancel := false
          arg := { selector := payload.getD 3 0, recipe := some recipe, twoCups := false }
          tasks := [.entry] } }

/-- Nothing a client or a task can see has changed. -/
structure HeRefused (m : Machine) (payload : List UInt8) : Prop where
  device : (serve m (.he payload)).core.device = m.core.device
  status : (serve m (.he payload)).core.status = m.core.status
  cycle : (serve m (.he payload)).core.cycle = m.core.cycle
  brewActive : (serve m (.he payload)).core.brew.active = m.core.brew.active
  brewCancel : (serve m (.he payload)).core.brew.cancel = m.core.brew.cancel
  brewTasks : (serve m (.he payload)).core.brew.tasks = m.core.brew.tasks

/-! ## The start call -/

/-- What holds of the flags and tasks between brews. -/
structure Core.BrewIdleOk (c : Core) : Prop where
  brewLock : c.brew.lockReady = true
  cycleLock : c.cycle.lockReady = true
  cancel : c.brew.active = false → c.brew.cancel = false
  tasks : c.brew.active = false → c.brew.tasks = []

theorem CoreReachable.brewIdleOk {c : Core} (h : CoreReachable c) : c.BrewIdleOk := by
  obtain ⟨it, nvs, taskResults, actions, rfl⟩ := h
  obtain ⟨hbrew, hcycle⟩ := Runs.invariant booted_step (booted_boot it nvs taskResults) actions
  have hagrees := (lives_of_brews_and_cycles it nvs taskResults actions).1
  refine ⟨hbrew, hcycle, hagrees.cancel, fun hidle => ?_⟩
  have hone := hagrees.atMostOne
  have hiff := hagrees.active_iff
  rw [hidle] at hiff
  apply List.eq_nil_of_length_eq_zero
  have hnotOne := mt hiff.mpr Bool.false_ne_true
  omega

@[simp] theorem toUInt8_toUInt16_toInt16 (b : UInt8) : b.toUInt16.toInt16.toUInt16.toUInt8 = b := by
  simp

/-- The start of a brew behind a request, check by check. -/
theorem nivonaBrewStart_selector {c : Core} (hok : c.BrewIdleOk) (sel : UInt8) :
    nivonaBrewStart c sel.toUInt16.toInt16 false =
      match nivonaFamilyRecipeBySelector c.family sel with
      | none => (c, false)
      | some recipe =>
          if c.cycle.active then (c, false)
          else if brewPromptRefuses c then (c, false)
          else brewCommit c sel recipe false := by
  rw [nivonaBrewStart, hok.brewLock, brewResolve, toUInt8_toUInt16_toInt16,
    nivonaMaintCycleActive, hok.cycleLock]
  cases nivonaFamilyRecipeBySelector c.family sel <;> rfl

/-- The checks of the start call, all met. -/
structure StartAccepts (c : Core) (sel : UInt8) : Prop where
  recipe : (nivonaFamilyRecipeBySelector c.family sel).isSome = true
  noCycle : c.cycle.active = false
  prompt : brewPromptRefuses c = false
  noBrew : c.brew.active = false
  created : c.taskResults 0 = true

theorem nivonaBrewStart_of_accepts {c : Core} (hok : c.BrewIdleOk) {sel : UInt8}
    (h : StartAccepts c sel) :
    ∃ recipe, nivonaFamilyRecipeBySelector c.family sel = some recipe ∧
      nivonaBrewStart c sel.toUInt16.toInt16 false =
        ({ c.xTaskCreate.2 with
          brew :=
            { lockReady := true, active := true, cancel := false
              arg := { selector := sel, recipe := some recipe, twoCups := false }
              tasks := [.entry] } }, true) := by
  obtain ⟨recipe, hrecipe⟩ := Option.isSome_iff_exists.mp h.recipe
  refine ⟨recipe, hrecipe, ?_⟩
  rw [nivonaBrewStart_selector hok, hrecipe]
  simp [h.noCycle, h.prompt, brewCommit, h.noBrew, Core.xTaskCreate, h.created, hok.brewLock,
    hok.tasks h.noBrew]

/-- A start that is refused, or gets no task, changes at most the stored argument. -/
theorem nivonaBrewStart_of_not_accepts {c : Core} (hok : c.BrewIdleOk) {sel : UInt8}
    (h : ¬StartAccepts c sel) :
    ∃ arg taskResults, nivonaBrewStart c sel.toUInt16.toInt16 false =
      ({ c with brew := { c.brew with arg := arg }, taskResults := taskResults }, false) := by
  have hkeep : ∃ arg taskResults, (c, false) =
      (({ c with brew := { c.brew with arg := arg }, taskResults := taskResults } : Core), false) :=
    ⟨c.brew.arg, c.taskResults, rfl⟩
  rw [nivonaBrewStart_selector hok]
  rcases hrecipe : nivonaFamilyRecipeBySelector c.family sel with _ | recipe
  · exact hkeep
  · dsimp only
    by_cases hcycle : c.cycle.active = true
    · rwa [if_pos hcycle]
    · rw [if_neg hcycle]
      by_cases hprompt : brewPromptRefuses c = true
      · rwa [if_pos hprompt]
      · rw [if_neg hprompt]
        by_cases hactive : c.brew.active = true
        · rwa [brewCommit, if_pos hactive]
        · have hidle : c.brew.active = false := Bool.eq_false_of_not_eq_true hactive
          have hfails : c.taskResults 0 = false := by
            by_contra hcreated
            exact h
              { recipe := by rw [hrecipe]; rfl
                noCycle := Bool.eq_false_of_not_eq_true hcycle
                prompt := Bool.eq_false_of_not_eq_true hprompt
                noBrew := hidle
                created := Bool.eq_true_of_not_eq_false hcreated }
          have hcancel := hok.cancel hidle
          refine ⟨{ selector := sel, recipe := some recipe, twoCups := false },
            c.xTaskCreate.2.taskResults, ?_⟩
          simp [brewCommit, hidle, Core.xTaskCreate, hfails, hcancel]

/-! ## The request -/

/-- The request meets its conditions when mode and flags are right and the start accepts. -/
theorem heAccepts_iff (m : Machine) (payload : List UInt8) :
    HeAccepts m payload ↔ payload.getD 1 0 = m.core.family.brewCommandMode ∧
      (payload.getD 5 0 = 0 ∨ payload.getD 5 0 = 1) ∧
      StartAccepts m.core (payload.getD 3 0) := by
  have hrecipe : (∃ r ∈ m.core.family.recipes, r.selector = payload.getD 3 0) ↔
      (nivonaFamilyRecipeBySelector m.core.family (payload.getD 3 0)).isSome = true := by
    rw [nivonaFamilyRecipeBySelector, List.find?_isSome]
    simp
  have hprompt : (m.core.status.manipulation = MANIP_NONE ∨
      nivonaMaintCurrentIsSoft m.core = true) ↔ brewPromptRefuses m.core = false := by
    rw [brewPromptRefuses]
    by_cases hnone : m.core.status.manipulation = MANIP_NONE
    · simp [hnone]
    · simp [hnone]
  constructor
  · rintro ⟨hmode, hflags, hrec, hcycle, hprom, hbrew, hcreated⟩
    exact ⟨hmode, hflags, hrecipe.mp hrec, hcycle, hprompt.mp hprom, hbrew, hcreated⟩
  · rintro ⟨hmode, hflags, hrec, hcycle, hprom, hbrew, hcreated⟩
    exact ⟨hmode, hflags, hrecipe.mpr hrec, hcycle, hprompt.mpr hprom, hbrew, hcreated⟩

/-- The machine with the call of the dispatcher recorded. -/
def Machine.dispatched (m : Machine) (r : DispatchedRequest) : Machine :=
  { m with link := { m.link with calls := m.link.calls ++ [Call.dispatch r.cmd r.payload] } }

/-- The handler, with its two results told apart. -/
theorem serve_he (m : Machine) (payload : List UInt8) :
    serve m (.he payload) =
      let d := m.dispatched (.he payload)
      let r := nivonaBrewStart m.core (payload.getD 3 0).toUInt16.toInt16 false
      if payload.getD 1 0 ≠ m.core.family.brewCommandMode then sendNack d
      else if payload.getD 5 0 ≠ 0 ∧ payload.getD 5 0 ≠ 1 then sendNack d
      else if r.2 then sendAck { d with core := r.1 } else sendNack { d with core := r.1 } := rfl

/-- An accepted request is acknowledged and starts its brew. -/
theorem serve_he_of_accepts {m : Machine} (hok : m.core.BrewIdleOk) {payload : List UInt8}
    (h : HeAccepts m payload) : Acked m (.he payload) ∧ HeBrews m payload := by
  obtain ⟨hmode, hflags, hstart⟩ := (heAccepts_iff m payload).mp h
  obtain ⟨recipe, hrecipe, hresult⟩ := nivonaBrewStart_of_accepts hok hstart
  have hnotFlags : ¬(payload.getD 5 0 ≠ 0 ∧ payload.getD 5 0 ≠ 1) := by
    rintro ⟨h0, h1⟩
    exact hflags.elim h0 h1
  have hserve : serve m (.he payload) = sendAck { m.dispatched (.he payload) with
      core := { m.core.xTaskCreate.2 with
        brew :=
          { lockReady := true, active := true, cancel := false
            arg := { selector := payload.getD 3 0, recipe := some recipe, twoCups := false }
            tasks := [.entry] } } } := by
    rw [serve_he]
    dsimp only
    rw [if_neg (not_not.mpr hmode), if_neg hnotFlags, hresult, if_pos rfl]
  rw [Acked, HeBrews, hserve]
  exact ⟨(answers_sendAck _).congr (by simp [Machine.dispatched]) rfl, recipe, hrecipe, rfl⟩

theorem answers_sendNack (m : Machine) : m.link.Answers (sendNack m).link CMD_NACK false [] := by
  apply answers_nivonaFrameSend m.link (.inl rfl)
  rw [length_frameOf]
  simp [sendPrefix, CMD_NACK, MAX_FRAME_BYTES]

/-- Any other request is answered by a NACK and changes nothing. -/
theorem serve_he_of_not_accepts {m : Machine} (hok : m.core.BrewIdleOk) {payload : List UInt8}
    (h : ¬HeAccepts m payload) : Nacked m (.he payload) ∧ HeRefused m payload := by
  have hserve : ∃ arg taskResults, serve m (.he payload) =
      sendNack { m.dispatched (.he payload) with
        core := { m.core with
          brew := { m.core.brew with arg := arg }, taskResults := taskResults } } := by
    rw [serve_he]
    dsimp only
    by_cases hmode : payload.getD 1 0 = m.core.family.brewCommandMode
    · by_cases hflags : payload.getD 5 0 ≠ 0 ∧ payload.getD 5 0 ≠ 1
      · rw [if_neg (not_not.mpr hmode), if_pos hflags]
        exact ⟨m.core.brew.arg, m.core.taskResults, rfl⟩
      · have hnotStart : ¬StartAccepts m.core (payload.getD 3 0) := by
          intro hstart
          apply h
          rw [heAccepts_iff]
          refine ⟨hmode, ?_, hstart⟩
          rw [not_and_or, not_not, not_not] at hflags
          exact hflags
        obtain ⟨arg, taskResults, hresult⟩ := nivonaBrewStart_of_not_accepts hok hnotStart
        refine ⟨arg, taskResults, ?_⟩
        rw [if_neg (not_not.mpr hmode), if_neg hflags, hresult, if_neg Bool.false_ne_true]
    · rw [if_pos hmode]
      exact ⟨m.core.brew.arg, m.core.taskResults, rfl⟩
  obtain ⟨arg, taskResults, hserve⟩ := hserve
  constructor
  · rw [Nacked, hserve]
    exact (answers_sendNack _).congr (by simp [Machine.dispatched]) rfl
  · constructor <;> rw [hserve] <;> rfl

/-- No request is answered by both. -/
theorem not_acked_of_nacked {m : Machine} {r : DispatchedRequest} (hnack : Nacked m r) :
    ¬Acked m r := by
  intro hack
  obtain ⟨pieces, hpieces, -, hdecode⟩ := hack
  obtain ⟨pieces', hpieces', -, hdecode'⟩ := hnack
  have hsame : pieces = pieces' := by
    rw [hpieces] at hpieces'
    exact List.append_cancel_left hpieces'
  subst hsame
  have hcmd := (hdecode 0).symm.trans (hdecode' 0)
  simp [CMD_ACK, CMD_NACK] at hcmd

/-- In every state a run leads to, a brew request is acknowledged exactly when it meets its
conditions, and then its brew is the one brew there is; otherwise it gets one NACK, and status,
registers, consumables, flags and tasks are as before. -/
theorem he_decided (m : Machine) (hreach : CoreReachable m.core) (payload : List UInt8) :
    (Acked m (.he payload) ↔ HeAccepts m payload) ∧
      (HeAccepts m payload → HeBrews m payload) ∧
      (¬HeAccepts m payload → Nacked m (.he payload) ∧ HeRefused m payload) := by
  have hok := hreach.brewIdleOk
  refine ⟨⟨fun hack => ?_, fun h => (serve_he_of_accepts hok h).1⟩,
    fun h => (serve_he_of_accepts hok h).2, serve_he_of_not_accepts hok⟩
  by_contra h
  exact not_acked_of_nacked (serve_he_of_not_accepts hok h).1 hack

/-- A new machine brews an espresso, but not in the mode of another family. -/
theorem he_decided_factoryFresh :
    Acked Machine.factoryFresh (.he [0, 0x04, 0, 0, 0, 0x01]) ∧
      Nacked Machine.factoryFresh (.he [0, 0x0B, 0, 0, 0, 0x01]) := by
  have hreach : CoreReachable Machine.factoryFresh.core :=
    coreReachable_machine Environment.benign Nvs.empty []
  have haccepts : HeAccepts Machine.factoryFresh [0, 0x04, 0, 0, 0, 0x01] :=
    { mode := by decide +kernel
      flags := .inr (by decide)
      recipe := ⟨⟨0, .espresso⟩, by decide +kernel, rfl⟩
      noCycle := by decide +kernel
      prompt := .inr (by decide +kernel)
      noBrew := by decide +kernel
      created := by decide +kernel }
  have hrefused : ¬HeAccepts Machine.factoryFresh [0, 0x0B, 0, 0, 0, 0x01] := by
    intro h
    exact absurd h.mode (by decide +kernel)
  exact ⟨(he_decided _ hreach _).1.mpr haccepts, ((he_decided _ hreach _).2.2 hrefused).1⟩

end Nivona
