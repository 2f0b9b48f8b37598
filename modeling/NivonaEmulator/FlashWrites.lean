import NivonaEmulator.Counters
import NivonaEmulator.Lib.Runs

/-!
# What a task writes to flash

A step of a task changes memory and makes a few flash writes, each of which
takes effect by itself.  The writes of a step are listed here in the order in
which the source makes them.
-/

namespace Nivona

/-- Opening a namespace for writing, which creates it, or storing an entry. -/
inductive NvsWrite
  | create (ns : NvsNamespace)
  | set (ns : NvsNamespace) (key : NvsKey) (v : NvsValue)
  deriving DecidableEq, Repr

def NvsWrite.ns : NvsWrite → NvsNamespace
  | .create ns => ns
  | .set ns _ _ => ns

def NvsWrite.apply (nvs : Nvs) : NvsWrite → Nvs
  | .create ns => Function.update nvs ns (some (nvs.openReadwrite ns))
  | .set ns key v => nvs.set ns key v

/-- The two blobs of `persist`. -/
def persistWrites (d : Device) : List NvsWrite :=
  [.set .consum KEY_TANKS (.blob (tanksBlob d.levels)),
   .set .consum KEY_PARTS (.blob (partsBlob d.parts))]

/-- The entry of a numerical register. -/
def numWrite (id : Int16) (v : Int32) : NvsWrite :=
  .set .num (makeKey id) (.i32 v)

/-! ## Writes of a brew -/

def consumeWrites (d : Device) : SubProcess → List NvsWrite
  | .grinding =>
      let beans := nivonaConsumablesConsumeBeans d 3
      persistWrites beans ++ persistWrites (nivonaConsumablesFillTray beans 2)
  | .coffee => persistWrites (nivonaConsumablesConsumeWater d 3)
  | .water => persistWrites (nivonaConsumablesConsumeWater d 5)
  | .steam => persistWrites (nivonaConsumablesConsumeWater d 3)
  | _ => []

/-- Each counter is read and written before the next. -/
def countWrites : List Int16 → Storage → List NvsWrite
  | [], _ => []
  | id :: ids, s =>
      numWrite id (nivonaStoreGetNum s id + 1) :: countWrites ids (batchBump s id)

def batchWearGaugeWrites (s : Storage) (gauge warn : Int16) (threshold : Int32) :
    List NvsWrite :=
  (if nivonaStoreGetNum s gauge > 0 then
    [numWrite gauge (nivonaStoreGetNum s gauge - 1)]
  else []) ++
  if nivonaStoreGetNum (lowerGauge s gauge) gauge < threshold then [numWrite warn 1] else []

def wearGaugesWrites (ticks : Int32) (s : Storage) : List NvsWrite :=
  let s₁ := batchWearGauge s 640 641 10
  let s₂ := if ticks &&& 1 = 0 then batchWearGauge s₁ 610 611 20 else s₁
  batchWearGaugeWrites s 640 641 10 ++
    (if ticks &&& 1 = 0 then batchWearGaugeWrites s₁ 610 611 20 else []) ++
    if ticks % 5 = 0 then batchWearGaugeWrites s₂ 600 601 20 else []

/-- One batch: it is opened first, and committed without another write. -/
def wearWrites (arg : BrewArg) (c : Core) : List NvsWrite :=
  let opened := nivonaStoreBatchBegin c.device.toStorage
  let counted := countBrew c.stats arg.selector opened
  .create .num :: countWrites (brewCounterIds c.stats arg.selector) opened ++
    wearGaugesWrites (wearTicks c.stats c.localWearTick counted) counted

def brewStepWrites (c : Core) : BrewPc → List NvsWrite
  | .stage run i _ =>
      match run.stages[i]?, c.brew.cancel with
      | some st, false => consumeWrites c.device st.sub
      | _, _ => []
  | .wear run => wearWrites run.arg c
  | _ => []

/-! ## Writes of a cycle -/

def completeWrites (plan : CyclePlan) (c : Core) : List NvsWrite :=
  let counterId := resolveStatCounter c.stats plan.statCounter
  (if counterId ≠ 0 then
    [numWrite counterId (nivonaStoreGetNum c.device.toStorage counterId + 1)]
  else []) ++
  (if plan.statPct ≠ 0 then [numWrite plan.statPct 100] else []) ++
  (if plan.statWarn ≠ 0 then [numWrite plan.statWarn 0] else []) ++
  (if plan.kind = .filterInsert ∨ plan.kind = .filterReplace then
    persistWrites (nivonaConsumableSet c.device .filter 100)
  else []) ++
  if plan.kind = .filterRemove then persistWrites (nivonaConsumableSet c.device .filter 0)
  else []

def cycleStepWrites (c : Core) : CyclePc → List NvsWrite
  | .complete plan => completeWrites plan c
  | _ => []

/-! ## The writes make up the step -/

/-- The writes of a computation on an open batch, one after the other. -/
structure Storage.Wrote (s s' : Storage) (writes : List NvsWrite) : Prop where
  nvs : s'.nvs = Runs.run NvsWrite.apply s.nvs writes
  batchOpen : s'.batchOpen = true

section

variable {s s' s'' : Storage}

theorem Storage.Wrote.append {ws ws' : List NvsWrite} (h : s.Wrote s' ws) (h' : s'.Wrote s'' ws') :
    s.Wrote s'' (ws ++ ws') where
  nvs := by rw [h'.nvs, h.nvs, Runs.run_append]
  batchOpen := h'.batchOpen

theorem Storage.wrote_nil (hopen : s.batchOpen = true) : s.Wrote s [] :=
  ⟨rfl, hopen⟩

/-- A write that is made or left out. -/
theorem Storage.wrote_ite {p : Prop} [Decidable p] (hopen : s.batchOpen = true)
    {ws : List NvsWrite} (h : s.Wrote s' ws) :
    s.Wrote (if p then s' else s) (if p then ws else []) := by
  by_cases hp : p
  · rw [if_pos hp, if_pos hp]
    exact h
  · rw [if_neg hp, if_neg hp]
    exact Storage.wrote_nil hopen

theorem wrote_batchSetNum (hopen : s.batchOpen = true) (id : Int16) (v : Int32) :
    s.Wrote (nivonaStoreBatchSetNum s id v) [numWrite id v] := by
  have hset : nivonaStoreBatchSetNum s id v = nivonaStoreSetNum s id v := if_pos hopen
  rw [hset]
  exact ⟨rfl, hopen⟩

theorem wrote_countAll (ids : List Int16) (hopen : s.batchOpen = true) :
    s.Wrote (ids.foldl batchBump s) (countWrites ids s) := by
  induction ids generalizing s with
  | nil => exact Storage.wrote_nil hopen
  | cons id ids ih =>
      have hfirst := wrote_batchSetNum hopen id (nivonaStoreGetNum s id + 1)
      exact hfirst.append (ih hfirst.batchOpen)

theorem wrote_batchWearGauge (hopen : s.batchOpen = true) (gauge warn : Int16)
    (threshold : Int32) :
    s.Wrote (batchWearGauge s gauge warn threshold)
      (batchWearGaugeWrites s gauge warn threshold) := by
  have hlower : s.Wrote (lowerGauge s gauge) _ :=
    Storage.wrote_ite hopen (wrote_batchSetNum hopen gauge (nivonaStoreGetNum s gauge - 1))
  rw [batchWearGauge_eq, batchWearGaugeWrites]
  exact hlower.append
    (Storage.wrote_ite hlower.batchOpen (wrote_batchSetNum hlower.batchOpen warn 1))

theorem wrote_wearGauges (ticks : Int32) (hopen : s.batchOpen = true) :
    s.Wrote (wearGauges ticks s) (wearGaugesWrites ticks s) := by
  have hfilter := wrote_batchWearGauge hopen 640 641 10
  have hunit := Storage.wrote_ite (p := ticks &&& 1 = 0) hfilter.batchOpen
    (wrote_batchWearGauge hfilter.batchOpen 610 611 20)
  have hscale := Storage.wrote_ite (p := ticks % 5 = 0) hunit.batchOpen
    (wrote_batchWearGauge hunit.batchOpen 600 601 20)
  exact (hfilter.append hunit).append hscale

end

/-- The writes of a completed brew. -/
theorem nvs_applyWearAfterBrew (arg : BrewArg) (c : Core) :
    (applyWearAfterBrew arg c).device.nvs =
      Runs.run NvsWrite.apply c.device.nvs (wearWrites arg c) := by
  have hcount := wrote_countAll (brewCounterIds c.stats arg.selector)
    (s := nivonaStoreBatchBegin c.device.toStorage) rfl
  have hwear := hcount.append (wrote_wearGauges
    (wearTicks c.stats c.localWearTick
      (countBrew c.stats arg.selector (nivonaStoreBatchBegin c.device.toStorage)))
    hcount.batchOpen)
  rw [applyWearAfterBrew_count]
  exact hwear.nvs

theorem nvs_consumeStage (d : Device) (sub : SubProcess) :
    (consumeStage d sub).nvs = Runs.run NvsWrite.apply d.nvs (consumeWrites d sub) := by
  cases sub <;> rfl

/-- The writes of a step of `brew_task`. -/
theorem nvs_brewTaskStep (c : Core) (pc : BrewPc) :
    (brewTaskStep c pc).core.device.nvs =
      Runs.run NvsWrite.apply c.device.nvs (brewStepWrites c pc) := by
  cases pc with
  | stage run i elapsedMs =>
      rcases hst : run.stages[i]? with _ | st
      · simp [brewTaskStep, brewStepWrites, hst]
      · cases hcancel : c.brew.cancel with
        | false =>
            simp only [brewTaskStep, brewStepWrites, hst, hcancel]
            exact nvs_consumeStage c.device st.sub
        | true => simp [brewTaskStep, brewStepWrites, hst, hcancel]
  | tick run i stageElapsed elapsedMs =>
      simp only [brewTaskStep]
      split
      · rfl
      · split <;> rfl
  | wear run => exact nvs_applyWearAfterBrew run.arg c
  | _ => rfl

/-- The writes of a completed cycle. -/
theorem nvs_cycleComplete (plan : CyclePlan) (c : Core) :
    (cycleComplete plan c).device.nvs =
      Runs.run NvsWrite.apply c.device.nvs (completeWrites plan c) := by
  simp only [cycleComplete, completeWrites]
  split_ifs <;> rfl

/-- The writes of a step of `cycle_task`. -/
theorem nvs_cycleTaskStep (c : Core) (pc : CyclePc) :
    (cycleTaskStep c pc).core.device.nvs =
      Runs.run NvsWrite.apply c.device.nvs (cycleStepWrites c pc) := by
  cases pc with
  | entry =>
      obtain ⟨plan, hplan, -⟩ := findPlan_isSome c.cycle.kind
      simp only [cycleTaskStep, hplan]
      split <;> rfl
  | tick plan elapsed => simp only [cycleTaskStep]; split <;> rfl
  | complete plan => exact nvs_cycleComplete plan c
  | _ => rfl

/-! ## Where tasks write -/

theorem ns_of_mem_persistWrites {d : Device} {w : NvsWrite} (h : w ∈ persistWrites d) :
    w.ns = .consum := by
  simp only [persistWrites, List.mem_cons, List.not_mem_nil, or_false] at h
  rcases h with rfl | rfl <;> rfl

theorem ns_of_mem_consumeWrites {d : Device} {sub : SubProcess} {w : NvsWrite}
    (h : w ∈ consumeWrites d sub) : w.ns = .consum := by
  cases sub with
  | grinding =>
      rcases List.mem_append.mp h with hbeans | htray
      · exact ns_of_mem_persistWrites hbeans
      · exact ns_of_mem_persistWrites htray
  | coffee => exact ns_of_mem_persistWrites h
  | water => exact ns_of_mem_persistWrites h
  | steam => exact ns_of_mem_persistWrites h
  | _ => cases h

theorem ns_of_mem_countWrites {ids : List Int16} {s : Storage} {w : NvsWrite}
    (h : w ∈ countWrites ids s) : w.ns = .num := by
  induction ids generalizing s with
  | nil => cases h
  | cons id ids ih =>
      rcases List.mem_cons.mp h with rfl | hrest
      · rfl
      · exact ih hrest

theorem eq_of_mem_ite {p : Prop} [Decidable p] {w w' : NvsWrite}
    (h : w ∈ if p then [w'] else []) : w = w' := by
  split at h
  · exact List.mem_singleton.mp h
  · cases h

theorem ns_of_mem_batchWearGaugeWrites {s : Storage} {gauge warn : Int16} {threshold : Int32}
    {w : NvsWrite} (h : w ∈ batchWearGaugeWrites s gauge warn threshold) : w.ns = .num := by
  rcases List.mem_append.mp h with hgauge | hwarn
  · rw [eq_of_mem_ite hgauge]
    rfl
  · rw [eq_of_mem_ite hwarn]
    rfl

theorem ns_of_mem_wearGaugesWrites {ticks : Int32} {s : Storage} {w : NvsWrite}
    (h : w ∈ wearGaugesWrites ticks s) : w.ns = .num := by
  simp only [wearGaugesWrites, List.mem_append] at h
  rcases h with (hfilter | hunit) | hscale
  · exact ns_of_mem_batchWearGaugeWrites hfilter
  · split at hunit
    · exact ns_of_mem_batchWearGaugeWrites hunit
    · cases hunit
  · split at hscale
    · exact ns_of_mem_batchWearGaugeWrites hscale
    · cases hscale

theorem ns_of_mem_wearWrites {arg : BrewArg} {c : Core} {w : NvsWrite}
    (h : w ∈ wearWrites arg c) : w.ns = .num := by
  rw [wearWrites] at h
  rcases List.mem_cons.mp h with rfl | hrest
  · rfl
  · rcases List.mem_append.mp hrest with hcount | hwear
    · exact ns_of_mem_countWrites hcount
    · exact ns_of_mem_wearGaugesWrites hwear

/-- A brew writes tanks at its stages and registers at its completion. -/
theorem ns_of_mem_brewStepWrites {c : Core} {pc : BrewPc} {w : NvsWrite}
    (h : w ∈ brewStepWrites c pc) : w.ns = .num ∨ w.ns = .consum := by
  cases pc with
  | stage run i elapsedMs =>
      simp only [brewStepWrites] at h
      split at h
      · exact .inr (ns_of_mem_consumeWrites h)
      · cases h
  | wear run => exact .inl (ns_of_mem_wearWrites h)
  | _ => cases h

/-- A cycle writes both at its completion. -/
theorem ns_of_mem_cycleStepWrites {c : Core} {pc : CyclePc} {w : NvsWrite}
    (h : w ∈ cycleStepWrites c pc) : w.ns = .num ∨ w.ns = .consum := by
  cases pc with
  | complete plan =>
      simp only [cycleStepWrites, completeWrites, List.mem_append] at h
      rcases h with (((hcount | hpct) | hwarn) | hinsert) | hremove
      · rw [eq_of_mem_ite hcount]
        exact .inl rfl
      · rw [eq_of_mem_ite hpct]
        exact .inl rfl
      · rw [eq_of_mem_ite hwarn]
        exact .inl rfl
      · split at hinsert
        · exact .inr (ns_of_mem_persistWrites hinsert)
        · cases hinsert
      · split at hremove
        · exact .inr (ns_of_mem_persistWrites hremove)
        · cases hremove
  | _ => cases h

end Nivona
