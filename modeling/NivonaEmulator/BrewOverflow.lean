import NivonaEmulator.BrewRamp
import NivonaEmulator.Counters
import NivonaEmulator.Lib.CheckedInt
import NivonaEmulator.WriteEffect

/-!
# Overflow during a brew

`brew_task` once more, with arithmetic that has no result outside its type.
Where it has one the task does what it does without the checks, and a brew that
runs alone keeps inside the types exactly when the registers that it reads do
not hold too much.
-/

namespace Nivona

open CheckedInt Shares

/-! ## The checked task -/

def fluidTotalChecked (ov : BrewOverrides) : Option Int32 :=
  [ov.coffeeAmount, ov.waterAmount, ov.milkAmount, ov.milkFoamAmount].foldlM addPositive 0

def applyOverrideScaleChecked (totalMs : UInt32) (ov : BrewOverrides) : Option UInt32 := do
  let fluidTotal ← fluidTotalChecked ov
  let strengthMult : ℚ :=
    if ov.strength > 0 then 1 + 15 / 100 * ov.strength.toInt else 1
  let volumeMult : ℚ :=
    if fluidTotal > 0 then min 4 (max (1 / 2) (fluidTotal.toInt / 80)) else 1
  truncU32 ((totalMs.toNat : ℚ) * (strengthMult * volumeMult))

def batchBumpChecked (s : Storage) (id : Int16) : Option Storage := do
  let count ← addI32 (nivonaStoreGetNum s id) 1
  some (nivonaStoreBatchSetNum s id count)

def countBrewChecked (stats : Stats) (selector : UInt8) (s : Storage) : Option Storage :=
  (brewCounterIds stats selector).foldlM batchBumpChecked s

def wearTicksChecked (stats : Stats) (localTick : Int32) (s : Storage) : Option Int32 :=
  if stats.totalId ≠ 0 then some (nivonaStoreGetNum s stats.totalId) else addI32 localTick 1

/-- Gauges are lowered above zero only, so that nothing is checked there. -/
def applyWearAfterBrewChecked (arg : BrewArg) (c : Core) : Option Core := do
  let s ← countBrewChecked c.stats arg.selector (nivonaStoreBatchBegin c.device.toStorage)
  let wearTicks ← wearTicksChecked c.stats c.localWearTick s
  some { c with
    device := { c.device with toStorage := nivonaStoreBatchEnd (wearGauges wearTicks s) }
    localWearTick := wearTicks }

def stageMsChecked (run : BrewRun) (st : BrewStage) : Option UInt32 := do
  let product ← mulU32 run.totalMs st.weight.toUInt32
  some (product / run.weightSum)

def progressPctChecked (elapsedMs totalMs : UInt32) : Option Int16 := do
  let scaled ← mulU32 elapsedMs 100
  let pct := (scaled / totalMs).toUInt16.toInt16
  some (if pct > 100 then 100 else pct)

def cupsMsChecked (ramp : BrewRamp) (twoCups : Bool) : Option UInt32 :=
  if twoCups then mulU32 ramp.totalMs 2 else some ramp.totalMs

def scaledMsChecked (totalMs : UInt32) (ov : BrewOverrides) : Option UInt32 :=
  if ov.active then applyOverrideScaleChecked totalMs ov else some totalMs

def brewRunChecked (c : Core) : Option BrewRun := do
  let arg := c.brew.arg
  let ramp := findRamp ((arg.recipe.map Recipe.category).getD .coffee)
  let cupsMs ← cupsMsChecked ramp arg.twoCups
  let totalMs ← scaledMsChecked cupsMs (readOverrides c.device.toStorage c.family)
  let weights ← ramp.stages.foldlM (fun sum st => addU32 sum st.weight.toUInt32) 0
  some
    { arg := arg
      brewCode := c.family.processBrewing
      readyCode := c.family.processReady
      stages := ramp.stages
      totalMs := totalMs
      weightSum := if weights = 0 then 1 else weights }

def brewTaskStepChecked (c : Core) : BrewPc → Option (TaskStep BrewPc)
  | .entry => do
      let run ← brewRunChecked c
      let c := nivonaFsmSetProcess c run.brewCode run.arg.selector.toUInt16.toInt16
      let c := nivonaFsmSetProgress c 0
      let c := nivonaFsmSetInfo c 0
      let c := nivonaFsmSetManipulation c MANIP_NONE
      some ⟨c, some (.stage run 0 0), true⟩
  | .stage run i elapsedMs =>
      match run.stages[i]?, c.brew.cancel with
      | some st, false => do
          let _ ← stageMsChecked run st
          let c := c.onDevice fun d => consumeStage d st.sub
          let c := nivonaFsmSetProcess c run.brewCode st.sub.code
          some ⟨c, some (.tick run i 0 elapsedMs), false⟩
      | _, _ => some ⟨c, some (.ready run), false⟩
  | .tick run i stageElapsed elapsedMs =>
      match run.stages[i]? with
      | none => some ⟨c, some (.ready run), false⟩
      | some st =>
          if stageElapsed < stageMs run st ∧ c.brew.cancel = false then do
            let step := min (stageMs run st - stageElapsed) TICK_MS
            let stageElapsed ← addU32 stageElapsed step
            let elapsedMs ← addU32 elapsedMs step
            let pct ← progressPctChecked elapsedMs run.totalMs
            some ⟨nivonaFsmSetProgress c pct, some (.tick run i stageElapsed elapsedMs), true⟩
          else some ⟨c, some (.stage run (i + 1) elapsedMs), false⟩
  | .ready run =>
      let c := nivonaFsmSetProcess c run.readyCode 0
      some ⟨nivonaFsmSetProgress c 0, some (.check run), false⟩
  | .check run => some ⟨c, some (if c.brew.cancel then .review else .wear run), false⟩
  | .wear run => do
      let c ← applyWearAfterBrewChecked run.arg c
      some ⟨c, some .review, false⟩
  | .review => some ⟨nivonaMaintReevaluate c, some .cleanup, true⟩
  | .cleanup =>
      some ⟨{ c with brew := { c.brew with active := false, cancel := false } }, none, false⟩

/-- One step of a brew that runs alone; afterwards nothing is left to do. -/
def brewMoveChecked (t : Core × Option BrewPc) : Option (Core × Option BrewPc) :=
  match t.2 with
  | none => some t
  | some pc => (brewTaskStepChecked t.1 pc).map fun r => (r.core, r.next)

/-- A brew that starts in this state runs to its end with every number in its type. -/
def BrewKeepsInRange (c : Core) : Prop := Total brewMoveChecked (c, some .entry)

/-! ## With and without the checks -/

theorem fluidTotal_eq (ov : BrewOverrides) {total : Int32}
    (h : fluidTotalChecked ov = some total) : total = ov.fluidTotal := by
  have hfold : ∀ (vs : List Int32) (acc sum : Int32), vs.foldlM addPositive acc = some sum →
      sum = vs.foldl (fun total v => if v > 0 then total + v else total) acc := by
    intro vs
    induction vs with
    | nil =>
        intro acc sum hsum
        exact (Option.some.inj hsum).symm
    | cons v vs ih =>
        intro acc sum hsum
        rw [List.foldlM_cons] at hsum
        obtain ⟨next, hnext, hrest⟩ := Option.bind_eq_some_iff.mp hsum
        rw [addPositive] at hnext
        rw [ih next sum hrest, List.foldl_cons]
        congr 1
        split at hnext
        · rename_i hv
          rw [if_pos hv, (addI32_some hnext).1]
        · rename_i hv
          rw [if_neg hv, Option.some.inj hnext]
  exact hfold _ _ _ h

theorem applyOverrideScale_eq {totalMs scaled : UInt32} {ov : BrewOverrides}
    (h : applyOverrideScaleChecked totalMs ov = some scaled) :
    scaled = applyOverrideScale totalMs ov := by
  obtain ⟨fluidTotal, hfluid, hscaled⟩ := Option.bind_eq_some_iff.mp h
  obtain rfl := fluidTotal_eq ov hfluid
  exact (truncU32_some hscaled).1

theorem batchBump_eq {s s' : Storage} {id : Int16} (h : batchBumpChecked s id = some s') :
    s' = batchBump s id := by
  obtain ⟨count, hcount, hs'⟩ := Option.bind_eq_some_iff.mp h
  rw [batchBump, ← (addI32_some hcount).1]
  exact (Option.some.inj hs').symm

theorem countBrew_of_checked {stats : Stats} {selector : UInt8} {s s' : Storage}
    (h : countBrewChecked stats selector s = some s') : s' = countBrew stats selector s := by
  rw [countBrewChecked] at h
  rw [countBrew]
  generalize brewCounterIds stats selector = ids at h ⊢
  induction ids generalizing s with
  | nil => exact (Option.some.inj h).symm
  | cons id ids ih =>
      rw [List.foldlM_cons] at h
      obtain ⟨next, hnext, hrest⟩ := Option.bind_eq_some_iff.mp h
      rw [ih hrest, batchBump_eq hnext, List.foldl_cons]

theorem applyWearAfterBrew_of_checked {arg : BrewArg} {c c' : Core}
    (h : applyWearAfterBrewChecked arg c = some c') : c' = applyWearAfterBrew arg c := by
  simp only [applyWearAfterBrewChecked, Option.bind_eq_bind, Option.bind_eq_some_iff] at h
  obtain ⟨s, hs, ticks, hticks, h⟩ := h
  have hwear : ticks = wearTicks c.stats c.localWearTick s := by
    rw [wearTicksChecked] at hticks
    rw [wearTicks]
    by_cases htotal : c.stats.totalId ≠ 0
    · rw [if_pos htotal] at hticks ⊢
      exact (Option.some.inj hticks).symm
    · rw [if_neg htotal] at hticks ⊢
      exact (addI32_some hticks).1
  rw [applyWearAfterBrew_count, ← countBrew_of_checked hs, ← hwear]
  exact (Option.some.inj h).symm

theorem brewRun_of_checked {c : Core} {run : BrewRun} (h : brewRunChecked c = some run) :
    run = brewRun c := by
  simp only [brewRunChecked, Option.bind_eq_bind, Option.bind_eq_some_iff] at h
  obtain ⟨cupsMs, hcups, totalMs, htotal, weights, hweights, h⟩ := h
  have hfold : ∀ (stages : List BrewStage) (acc sum : UInt32),
      stages.foldlM (fun sum st => addU32 sum st.weight.toUInt32) acc = some sum →
        sum = stages.foldl (fun sum st => sum + st.weight.toUInt32) acc := by
    intro stages
    induction stages with
    | nil =>
        intro acc sum hsum
        exact (Option.some.inj hsum).symm
    | cons st stages ih =>
        intro acc sum hsum
        rw [List.foldlM_cons] at hsum
        obtain ⟨next, hnext, hrest⟩ := Option.bind_eq_some_iff.mp hsum
        rw [ih next sum hrest, List.foldl_cons, (addU32_some hnext).1]
  have hbase : cupsMs = if c.brew.arg.twoCups then
      (findRamp ((c.brew.arg.recipe.map Recipe.category).getD .coffee)).totalMs * 2
      else (findRamp ((c.brew.arg.recipe.map Recipe.category).getD .coffee)).totalMs := by
    rw [cupsMsChecked] at hcups
    by_cases htwo : c.brew.arg.twoCups = true
    · rw [if_pos htwo] at hcups ⊢
      exact (mulU32_some hcups).1
    · rw [if_neg htwo] at hcups ⊢
      exact (Option.some.inj hcups).symm
  have hduration : totalMs = if (readOverrides c.device.toStorage c.family).active then
      applyOverrideScale cupsMs (readOverrides c.device.toStorage c.family) else cupsMs := by
    rw [scaledMsChecked] at htotal
    by_cases hactive : (readOverrides c.device.toStorage c.family).active = true
    · rw [if_pos hactive] at htotal ⊢
      exact applyOverrideScale_eq htotal
    · rw [if_neg hactive] at htotal ⊢
      exact (Option.some.inj htotal).symm
  obtain rfl := Option.some.inj h
  rw [hfold _ _ _ hweights, hduration, hbase]
  rfl

/-- A checked step that has a result is the step of the task. -/
theorem brewTaskStep_of_checked {c : Core} {pc : BrewPc} {r : TaskStep BrewPc}
    (h : brewTaskStepChecked c pc = some r) : r = brewTaskStep c pc := by
  cases pc with
  | entry =>
      obtain ⟨run, hrun, h⟩ := Option.bind_eq_some_iff.mp h
      obtain rfl := brewRun_of_checked hrun
      exact (Option.some.inj h).symm
  | stage run i elapsedMs =>
      rw [brewTaskStepChecked] at h
      rw [brewTaskStep]
      cases hst : run.stages[i]? with
      | none =>
          rw [hst] at h
          exact (Option.some.inj h).symm
      | some st =>
          rw [hst] at h
          cases hcancel : c.brew.cancel with
          | true =>
              rw [hcancel] at h
              exact (Option.some.inj h).symm
          | false =>
              rw [hcancel] at h
              obtain ⟨_, -, h⟩ := Option.bind_eq_some_iff.mp h
              exact (Option.some.inj h).symm
  | tick run i stageElapsed elapsedMs =>
      rw [brewTaskStepChecked] at h
      rw [brewTaskStep]
      cases hst : run.stages[i]? with
      | none =>
          rw [hst] at h
          exact (Option.some.inj h).symm
      | some st =>
          rw [hst] at h
          dsimp only at h ⊢
          by_cases hgo : stageElapsed < stageMs run st ∧ c.brew.cancel = false
          · rw [if_pos hgo] at h ⊢
            obtain ⟨stageElapsed', hstage, h⟩ := Option.bind_eq_some_iff.mp h
            obtain ⟨elapsedMs', helapsed, h⟩ := Option.bind_eq_some_iff.mp h
            obtain ⟨pct, hpct, h⟩ := Option.bind_eq_some_iff.mp h
            obtain ⟨scaled, hscaled, hpct⟩ := Option.bind_eq_some_iff.mp hpct
            obtain rfl := (addU32_some hstage).1
            obtain rfl := (addU32_some helapsed).1
            obtain rfl := (mulU32_some hscaled).1
            obtain rfl := Option.some.inj hpct
            exact (Option.some.inj h).symm
          · rw [if_neg hgo] at h ⊢
            exact (Option.some.inj h).symm
  | wear run =>
      obtain ⟨c', hwear, h⟩ := Option.bind_eq_some_iff.mp h
      obtain rfl := applyWearAfterBrew_of_checked hwear
      exact (Option.some.inj h).symm
  | ready run => exact (Option.some.inj h).symm
  | check run => exact (Option.some.inj h).symm
  | review => exact (Option.some.inj h).symm
  | cleanup => exact (Option.some.inj h).symm

/-! ## Counting -/

/-- The greatest value of a register. -/
def INT32_MAX : Int32 := 2147483647

theorem addI32_one_isSome {v : Int32} : (addI32 v 1).isSome ↔ v ≠ INT32_MAX := by
  have hlow := v.le_toInt
  have hhigh := v.toInt_lt
  have hone : (1 : Int32).toInt = 1 := rfl
  have hmax : INT32_MAX.toInt = 2147483647 := rfl
  rw [addI32, hone, Ne, ← Int32.toInt_inj, hmax]
  split
  · simp only [Option.isSome_some, true_iff]
    omega
  · simp only [Option.isSome_none, Bool.false_eq_true, false_iff, not_not]
    omega

/-- Every counter of a list goes up in its type when none of them is at its greatest. -/
theorem countAll_isSome {ids : List Int16} (hnodup : ids.Nodup) (s : Storage) :
    (ids.foldlM batchBumpChecked s).isSome ↔
      ∀ id ∈ ids, nivonaStoreGetNum s id ≠ INT32_MAX := by
  induction ids generalizing s with
  | nil => simp
  | cons id ids ih =>
      rw [List.nodup_cons] at hnodup
      rw [List.foldlM_cons, batchBumpChecked, List.forall_mem_cons, ← addI32_one_isSome]
      cases hadd : addI32 (nivonaStoreGetNum s id) 1 with
      | none => simp
      | some count =>
          have hothers : ∀ k ∈ ids, nivonaStoreGetNum (nivonaStoreBatchSetNum s id count) k =
              nivonaStoreGetNum s k := by
            intro k hk
            have hne : k ≠ id := by
              rintro rfl
              exact hnodup.1 hk
            rw [nivonaStoreGetNum, num_batchSetNum, SlotTable.get_put_of_ne _ hne,
              nivonaStoreGetNum]
          have hrest := ih hnodup.2 (nivonaStoreBatchSetNum s id count)
          simp only [Option.bind_eq_bind, Option.bind_some, hrest, Option.isSome_some, true_and]
          exact forall₂_congr fun k hk => by rw [hothers k hk]

/-- Neither a counter of the brew nor the tick that paces the wear is at its greatest. -/
structure CountersFit (c : Core) (selector : UInt8) : Prop where
  counters : ∀ id ∈ brewCounterIds c.stats selector,
    nivonaStoreGetNum c.device.toStorage id ≠ INT32_MAX
  tick : c.stats.totalId = 0 → c.localWearTick ≠ INT32_MAX

/-- What the counting depends on. -/
def Core.brewInputs (c : Core) : SlotTable Int16 Int32 NUM_CAP × FamilyId × Int32 × Bool :=
  (c.device.num, c.device.family, c.localWearTick, c.brew.cancel)

theorem cancel_of_brewInputs {c c' : Core} (h : c'.brewInputs = c.brewInputs) :
    c'.brew.cancel = c.brew.cancel :=
  congrArg (fun inputs => inputs.2.2.2) h

theorem CountersFit.congr {c c' : Core} {selector : UInt8} (h : CountersFit c selector)
    (hinputs : c'.brewInputs = c.brewInputs) : CountersFit c' selector := by
  simp only [Core.brewInputs, Prod.mk.injEq] at hinputs
  obtain ⟨hnum, hfamily, hlocal, -⟩ := hinputs
  refine ⟨?_, ?_⟩
  · rw [Core.stats, hfamily]
    intro id hid
    rw [nivonaStoreGetNum, hnum]
    exact h.counters id hid
  · rw [Core.stats, hfamily, hlocal]
    exact h.tick

theorem applyWear_isSome {arg : BrewArg} (hsel : arg.selector ≤ 10) (c : Core) :
    (applyWearAfterBrewChecked arg c).isSome ↔ CountersFit c arg.selector := by
  have hcount := countAll_isSome (nodup_brewCounterIds c.device.family hsel)
    (nivonaStoreBatchBegin c.device.toStorage)
  have htick (s : Storage) : (wearTicksChecked c.stats c.localWearTick s).isSome ↔
      (c.stats.totalId = 0 → c.localWearTick ≠ INT32_MAX) := by
    rw [wearTicksChecked, ← addI32_one_isSome]
    by_cases htotal : c.stats.totalId = 0
    · rw [if_neg (not_not.mpr htotal)]
      simp [htotal]
    · rw [if_pos htotal]
      simp [htotal]
  rw [applyWearAfterBrewChecked, countBrewChecked]
  constructor
  · intro h
    cases hs : (brewCounterIds c.stats arg.selector).foldlM batchBumpChecked
        (nivonaStoreBatchBegin c.device.toStorage) with
    | none =>
        rw [hs] at h
        cases h
    | some s =>
        rw [hs] at h
        cases hticks : wearTicksChecked c.stats c.localWearTick s with
        | none =>
            simp only [Option.bind_eq_bind, Option.bind_some, hticks] at h
            cases h
        | some ticks =>
            exact ⟨hcount.mp (hs ▸ rfl), (htick s).mp (hticks ▸ rfl)⟩
  · intro h
    obtain ⟨s, hs⟩ := Option.isSome_iff_exists.mp (hcount.mpr h.counters)
    obtain ⟨ticks, hticks⟩ := Option.isSome_iff_exists.mp ((htick s).mpr h.tick)
    have hs' : (brewCounterIds c.stats arg.selector).foldlM batchBumpChecked
        (nivonaStoreBatchBegin c.device.toStorage) = some s := hs
    simp only [Option.bind_eq_bind, hs', Option.bind_some, hticks, Option.isSome_some]

/-! ## From the ramp to the end -/

section

variable {run : BrewRun}

theorem total_end (c : Core) : Total brewMoveChecked (c, none) := total_of_fixed rfl

theorem total_review (c : Core) : Total brewMoveChecked (c, some .review) := by
  have hreview : brewMoveChecked (c, some .review) =
      some (nivonaMaintReevaluate c, some .cleanup) := rfl
  have hcleanup (c : Core) : brewMoveChecked (c, some .cleanup) =
      some ({ c with brew := { c.brew with active := false, cancel := false } }, none) := rfl
  rw [total_of_some hreview, total_of_some (hcleanup _)]
  exact total_end _

theorem total_wear (hsel : run.arg.selector ≤ 10) (c : Core) :
    Total brewMoveChecked (c, some (.wear run)) ↔ CountersFit c run.arg.selector := by
  rw [← applyWear_isSome hsel c]
  cases hwear : applyWearAfterBrewChecked run.arg c with
  | none =>
      have hstep : brewMoveChecked (c, some (.wear run)) = none := by
        simp [brewMoveChecked, brewTaskStepChecked, hwear]
      exact ⟨fun h => absurd h (not_total_of_none hstep), fun h => by cases h⟩
  | some c' =>
      have hstep : brewMoveChecked (c, some (.wear run)) = some (c', some .review) := by
        simp [brewMoveChecked, brewTaskStepChecked, hwear]
      rw [total_of_some hstep]
      exact ⟨fun _ => rfl, fun _ => total_review c'⟩

theorem total_ready (hsel : run.arg.selector ≤ 10) {c : Core} (hcancel : c.brew.cancel = false) :
    Total brewMoveChecked (c, some (.ready run)) ↔ CountersFit c run.arg.selector := by
  let c₁ := nivonaFsmSetProgress (nivonaFsmSetProcess c run.readyCode 0) 0
  have hready : brewMoveChecked (c, some (.ready run)) = some (c₁, some (.check run)) := rfl
  have hcheck : brewMoveChecked (c₁, some (.check run)) = some (c₁, some (.wear run)) := by
    have hcancel₁ : c₁.brew.cancel = false := hcancel
    simp [brewMoveChecked, brewTaskStepChecked, hcancel₁]
  rw [total_of_some hready, total_of_some hcheck, total_wear hsel]
  exact ⟨fun h => h.congr rfl, fun h => h.congr rfl⟩

/-! ## The ramp -/

/-- The products of the stages, and the elapsed time as hundredths, fit their type. -/
def RampFits (total : ℕ) : ℕ → List ℕ → Prop
  | _, [] => True
  | elapsed, w :: ws =>
      total * w < 2 ^ 32 ∧ (elapsed + share total 10 w) * 100 < 2 ^ 32 ∧
        RampFits total (elapsed + share total 10 w) ws

/-- One tick of the checked task. -/
theorem move_tick (elapsedMs : UInt32) {i : ℕ} {st : BrewStage}
    (hst : run.stages[i]? = some st) {c : Core} (hcancel : c.brew.cancel = false)
    {stageElapsed : UInt32} (hlt : stageElapsed.toNat < run.budget st) :
    ∃ step : UInt32, 0 < step.toNat ∧ stageElapsed.toNat + step.toNat ≤ run.budget st ∧
      (stageElapsed + step).toNat = stageElapsed.toNat + step.toNat ∧
      ((elapsedMs.toNat + step.toNat) * 100 < 2 ^ 32 →
        (elapsedMs + step).toNat = elapsedMs.toNat + step.toNat ∧
        ∃ c', c'.brewInputs = c.brewInputs ∧
          brewMoveChecked (c, some (.tick run i stageElapsed elapsedMs)) =
            some (c', some (.tick run i (stageElapsed + step) (elapsedMs + step)))) ∧
      (2 ^ 32 ≤ (elapsedMs.toNat + step.toNat) * 100 →
        brewMoveChecked (c, some (.tick run i stageElapsed elapsedMs)) = none) := by
  have hword : run.budget st < 2 ^ 32 := (stageMs run st).toNat_lt
  have htick : TICK_MS.toNat = 500 := rfl
  have hhundred : (100 : UInt32).toNat = 100 := rfl
  have hgo : stageElapsed < stageMs run st ∧ c.brew.cancel = false :=
    ⟨UInt32.lt_iff_toNat_lt.mpr hlt, hcancel⟩
  have hstep := toNat_step hlt
  generalize hs : min (stageMs run st - stageElapsed) TICK_MS = step at hstep
  have hstage : addU32 stageElapsed step = some (stageElapsed + step) :=
    if_pos (by omega)
  have hbody : brewMoveChecked (c, some (.tick run i stageElapsed elapsedMs)) =
      ((addU32 elapsedMs step).bind fun elapsedMs' =>
        (progressPctChecked elapsedMs' run.totalMs).bind fun pct =>
          some (nivonaFsmSetProgress c pct,
            some (.tick run i (stageElapsed + step) elapsedMs'))) := by
    simp only [brewMoveChecked, brewTaskStepChecked, hst, if_pos hgo, hs, Option.bind_eq_bind,
      hstage, Option.bind_some, Option.map_bind]
    congr 1
    funext elapsedMs'
    rw [Function.comp_apply]
    cases progressPctChecked elapsedMs' run.totalMs <;> rfl
  refine ⟨step, by omega, by omega, (addU32_some hstage).2, fun hfit => ?_, fun hover => ?_⟩
  · have helapsed : addU32 elapsedMs step = some (elapsedMs + step) := if_pos (by omega)
    have hvalue := (addU32_some helapsed).2
    have hscaled : mulU32 (elapsedMs + step) 100 = some ((elapsedMs + step) * 100) :=
      if_pos (by rw [hvalue, hhundred]; exact hfit)
    have hpct : progressPctChecked (elapsedMs + step) run.totalMs =
        some (progressPct (elapsedMs + step) run.totalMs) := by
      rw [progressPctChecked, hscaled]
      rfl
    refine ⟨hvalue, ?_⟩
    rw [hbody, helapsed, Option.bind_some, hpct, Option.bind_some]
    exact ⟨nivonaFsmSetProgress c (progressPct (elapsedMs + step) run.totalMs), rfl, rfl⟩
  · rw [hbody]
    cases helapsed : addU32 elapsedMs step with
    | none => rfl
    | some elapsedMs' =>
        have hvalue := (addU32_some helapsed).2
        have hscaled : mulU32 elapsedMs' 100 = none :=
          if_neg (by rw [hvalue, hhundred]; omega)
        rw [Option.bind_some, progressPctChecked, hscaled]
        rfl

/-- Where the ticks of a stage fit, the rest of the brew decides. -/
theorem total_tick_iff {i : ℕ} {st : BrewStage} (hst : run.stages[i]? = some st) {c : Core}
    (hcancel : c.brew.cancel = false) {base : ℕ}
    (hfit : (base + run.budget st) * 100 < 2 ^ 32) {Q : Prop}
    (hQ : ∀ c' elapsedMs, c'.brewInputs = c.brewInputs →
      elapsedMs.toNat = base + run.budget st →
        (Total brewMoveChecked (c', some (.stage run (i + 1) elapsedMs)) ↔ Q))
    {c' : Core} (hinputs : c'.brewInputs = c.brewInputs) {stageElapsed elapsedMs : UInt32}
    (hle : stageElapsed.toNat ≤ run.budget st)
    (helapsed : elapsedMs.toNat = base + stageElapsed.toNat) :
    Total brewMoveChecked (c', some (.tick run i stageElapsed elapsedMs)) ↔ Q := by
  induction hleft : run.budget st - stageElapsed.toNat using Nat.strong_induction_on
    generalizing c' stageElapsed elapsedMs with
  | _ left ih =>
      have hcancel' : c'.brew.cancel = false := (cancel_of_brewInputs hinputs).trans hcancel
      by_cases hlt : stageElapsed.toNat < run.budget st
      · obtain ⟨step, hpos, hmost, hstage, hgo, -⟩ :=
          move_tick elapsedMs hst hcancel' hlt
        obtain ⟨hvalue, c'', hsame, hmove⟩ := hgo (by omega)
        rw [total_of_some hmove]
        exact ih _ (by omega) (hsame.trans hinputs) (by omega) (by omega) rfl
      · have hstop : ¬(stageElapsed < stageMs run st ∧ c'.brew.cancel = false) := fun h =>
          hlt (UInt32.lt_iff_toNat_lt.mp h.1)
        have hmove : brewMoveChecked (c', some (.tick run i stageElapsed elapsedMs)) =
            some (c', some (.stage run (i + 1) elapsedMs)) := by
          simp only [brewMoveChecked, brewTaskStepChecked, hst, if_neg hstop, Option.map_some]
        rw [total_of_some hmove]
        exact hQ c' elapsedMs hinputs (by omega)

/-- Where they do not, the brew is stopped before the stage is over. -/
theorem not_total_tick {i : ℕ} {st : BrewStage} (hst : run.stages[i]? = some st) {base : ℕ}
    (hover : 2 ^ 32 ≤ (base + run.budget st) * 100) {c : Core} (hcancel : c.brew.cancel = false)
    {stageElapsed elapsedMs : UInt32} (hlt : stageElapsed.toNat < run.budget st)
    (helapsed : elapsedMs.toNat = base + stageElapsed.toNat) :
    ¬Total brewMoveChecked (c, some (.tick run i stageElapsed elapsedMs)) := by
  induction hleft : run.budget st - stageElapsed.toNat using Nat.strong_induction_on
    generalizing c stageElapsed elapsedMs with
  | _ left ih =>
      obtain ⟨step, hpos, hmost, hstage, hgo, hstop⟩ :=
        move_tick elapsedMs hst hcancel hlt
      by_cases hfit : (elapsedMs.toNat + step.toNat) * 100 < 2 ^ 32
      · obtain ⟨hvalue, c', hsame, hmove⟩ := hgo hfit
        have hcancel' : c'.brew.cancel = false := (cancel_of_brewInputs hsame).trans hcancel
        rw [total_of_some hmove]
        exact ih _ (by omega) hcancel' (by omega) (by omega) rfl
      · exact not_total_of_none (hstop (by omega))

/-- The start of a stage in the checked task. -/
theorem move_stage (hten : run.weightSum = 10) {i : ℕ} {st : BrewStage}
    (hst : run.stages[i]? = some st) {c : Core} (hcancel : c.brew.cancel = false)
    (elapsedMs : UInt32) :
    (run.totalMs.toNat * st.weight.toNat < 2 ^ 32 →
      run.budget st = share run.totalMs.toNat 10 st.weight.toNat ∧
      ∃ c', c'.brewInputs = c.brewInputs ∧
        brewMoveChecked (c, some (.stage run i elapsedMs)) =
          some (c', some (.tick run i 0 elapsedMs))) ∧
    (2 ^ 32 ≤ run.totalMs.toNat * st.weight.toNat →
      brewMoveChecked (c, some (.stage run i elapsedMs)) = none) := by
  constructor
  · intro hproduct
    have hten' : run.weightSum.toNat = 10 := by rw [hten]; rfl
    have hmul : mulU32 run.totalMs st.weight.toUInt32 =
        some (run.totalMs * st.weight.toUInt32) :=
      if_pos (by rw [UInt8.toNat_toUInt32]; exact hproduct)
    have hbudget : run.budget st = share run.totalMs.toNat 10 st.weight.toNat := by
      rw [BrewRun.budget, stageMs, UInt32.toNat_div, (mulU32_some hmul).2,
        UInt8.toNat_toUInt32, hten', share]
    let c' := nivonaFsmSetProcess (c.onDevice fun d => consumeStage d st.sub) run.brewCode
      st.sub.code
    have hsame : c'.brewInputs = c.brewInputs := by
      have hframe := consumeStage_frame c.device st.sub
      simp only [Core.brewInputs, c', nivonaFsmSetProcess, Core.onDevice, hframe.1, hframe.2]
    refine ⟨hbudget, c', hsame, ?_⟩
    simp only [brewMoveChecked, brewTaskStepChecked, hst, hcancel, stageMsChecked, hmul]
    rfl
  · intro hproduct
    have hmul : mulU32 run.totalMs st.weight.toUInt32 = none :=
      if_neg (by rw [UInt8.toNat_toUInt32]; exact Nat.not_lt.mpr hproduct)
    simp only [brewMoveChecked, brewTaskStepChecked, hst, hcancel, stageMsChecked, hmul]
    rfl

/-- From a stage on, a brew keeps in range when its stages and its counters do. -/
theorem total_stage_iff (hten : run.weightSum = 10) (hsel : run.arg.selector ≤ 10) {c : Core}
    (hcancel : c.brew.cancel = false) {i : ℕ} {stages : List BrewStage}
    (hstages : run.stages.drop i = stages) {c' : Core} (hinputs : c'.brewInputs = c.brewInputs)
    {elapsedMs : UInt32} (hfit : elapsedMs.toNat * 100 < 2 ^ 32) :
    Total brewMoveChecked (c', some (.stage run i elapsedMs)) ↔
      RampFits run.totalMs.toNat elapsedMs.toNat (stages.map fun st => st.weight.toNat) ∧
        CountersFit c run.arg.selector := by
  induction stages generalizing i c' elapsedMs with
  | nil =>
      have hcancel' : c'.brew.cancel = false := (cancel_of_brewInputs hinputs).trans hcancel
      have hnone : run.stages[i]? = none := by
        rw [List.getElem?_eq_none_iff]
        exact List.drop_eq_nil_iff.mp hstages
      have hmove : brewMoveChecked (c', some (.stage run i elapsedMs)) =
          some (c', some (.ready run)) := by
        simp [brewMoveChecked, brewTaskStepChecked, hnone]
      rw [total_of_some hmove, total_ready hsel hcancel']
      exact ⟨fun h => ⟨trivial, h.congr hinputs.symm⟩, fun h => h.2.congr hinputs⟩
  | cons st stages ih =>
      have hi : i < run.stages.length := by
        by_contra hge
        rw [List.drop_eq_nil_of_le (Nat.le_of_not_lt hge)] at hstages
        cases hstages
      rw [List.drop_eq_getElem_cons hi, List.cons.injEq] at hstages
      have hst : run.stages[i]? = some st := by
        rw [List.getElem?_eq_getElem hi, hstages.1]
      have hcancel' : c'.brew.cancel = false := (cancel_of_brewInputs hinputs).trans hcancel
      obtain ⟨hgo, hstop⟩ := move_stage hten hst hcancel' elapsedMs
      rw [List.map_cons, RampFits]
      by_cases hproduct : run.totalMs.toNat * st.weight.toNat < 2 ^ 32
      · obtain ⟨hbudget, c₁, hsame, hmove⟩ := hgo hproduct
        have hinputs₁ := hsame.trans hinputs
        have hcancel₁ : c₁.brew.cancel = false := (cancel_of_brewInputs hinputs₁).trans hcancel
        have hstart : elapsedMs.toNat = elapsedMs.toNat + (0 : UInt32).toNat := rfl
        rw [total_of_some hmove, ← hbudget]
        by_cases hnext : (elapsedMs.toNat + run.budget st) * 100 < 2 ^ 32
        · have hiff := total_tick_iff (Q := RampFits run.totalMs.toNat
            (elapsedMs.toNat + run.budget st) (stages.map fun st => st.weight.toNat) ∧
              CountersFit c run.arg.selector) hst hcancel₁ hnext
            (fun c₂ elapsedMs' hsame₂ helapsed => by
              rw [← helapsed]
              exact ih hstages.2 (hsame₂.trans hinputs₁) (by omega))
            rfl (Nat.zero_le _) hstart
          rw [hiff]
          constructor
          · rintro ⟨hrest, hcounters⟩
            exact ⟨⟨hproduct, hnext, hrest⟩, hcounters⟩
          · rintro ⟨⟨-, -, hrest⟩, hcounters⟩
            exact ⟨hrest, hcounters⟩
        · have hsome : (0 : UInt32).toNat < run.budget st := by
            have hzero : (0 : UInt32).toNat = 0 := rfl
            omega
          have hnot := not_total_tick hst (Nat.le_of_not_lt hnext) hcancel₁ hsome hstart
          exact ⟨fun h => absurd h hnot, fun h => absurd h.1.2.1 hnext⟩
      · have hmove := hstop (Nat.le_of_not_lt hproduct)
        exact ⟨fun h => absurd h (not_total_of_none hmove), fun h => absurd h.1.1 hproduct⟩

end

/-- The longest duration of a ramp whose products fit their type. -/
def BrewRamp.limit (ramp : BrewRamp) : ℕ :=
  match ramp.category with
  | .espresso | .coffee | .americano => 42949673
  | .milkDrink => 42949674
  | .milkOnly | .water | .unknown => 42949672

theorem rampFits_iff {ramp : BrewRamp} (hramp : ramp ∈ RAMPS) (total : ℕ) :
    RampFits total 0 (ramp.stages.map fun st => st.weight.toNat) ↔ total ≤ ramp.limit := by
  -- around the limits the divisions are evaluated, elsewhere they are bounded
  have hcases : total ≤ 42949672 ∨ total = 42949673 ∨ total = 42949674 ∨ total = 42949675 ∨
      42949676 ≤ total := by omega
  simp only [RAMPS, List.mem_cons, List.not_mem_nil, or_false] at hramp
  rcases hramp with rfl | rfl | rfl | rfl | rfl | rfl <;>
    simp [RampFits, share, BrewRamp.limit, S_ESPRESSO, rampCoffee, S_COFFEE, S_AMERICANO,
      S_MILK_DRINK, S_MILK_ONLY, S_WATER] <;>
    rcases hcases with hlow | rfl | rfl | rfl | hhigh <;>
    omega

/-! ## The duration -/

def BrewOverrides.volumes (ov : BrewOverrides) : List Int32 :=
  [ov.coffeeAmount, ov.waterAmount, ov.milkAmount, ov.milkFoamAmount]

/-- The multiplier of the duration, of the exact sum of the volumes. -/
def durationFactor (ov : BrewOverrides) : ℚ :=
  let strengthMult : ℚ := 1 + 15 / 100 * (max ov.strength.toInt 0 : ℤ)
  let volumeMult : ℚ :=
    if 0 < positiveSum ov.volumes then min 4 (max (1 / 2) ((positiveSum ov.volumes : ℚ) / 80))
    else 1
  strengthMult * volumeMult

/-- Without overrides nothing is scaled. -/
theorem durationFactor_of_not_active {ov : BrewOverrides} (h : ov.active = false) :
    positiveSum ov.volumes = 0 ∧ durationFactor ov = 1 := by
  have hzero : (0 : Int32).toInt = 0 := rfl
  simp only [BrewOverrides.active, Bool.or_eq_false_iff, decide_eq_false_iff_not, ge_iff_le,
    gt_iff_lt, Int32.le_iff_toInt_le, Int32.lt_iff_toInt_lt, hzero, not_le, not_lt] at h
  obtain ⟨⟨⟨⟨⟨hstrength, -⟩, hcoffee⟩, hwater⟩, hmilk⟩, hfoam⟩ := h
  have hsum : positiveSum ov.volumes = 0 := by
    simp [positiveSum, BrewOverrides.volumes, max_eq_right hcoffee, max_eq_right hwater,
      max_eq_right hmilk, max_eq_right hfoam]
  refine ⟨hsum, ?_⟩
  rw [durationFactor, hsum, max_eq_right hstrength.le]
  norm_num

theorem durationFactor_nonneg (ov : BrewOverrides) : 0 ≤ durationFactor ov := by
  have hstrength : (0 : ℚ) ≤ (max ov.strength.toInt 0 : ℤ) := by
    exact_mod_cast le_max_right ov.strength.toInt 0
  have hhalf : (0 : ℚ) ≤ 1 / 2 := by norm_num
  have hfour : (0 : ℚ) ≤ 4 := by norm_num
  rw [durationFactor]
  refine mul_nonneg (by linarith) ?_
  split
  · exact le_min hfour (hhalf.trans (le_max_left _ _))
  · exact zero_le_one

/-- The scaling has a result when the volumes and the duration fit, and it is the exact
duration, truncated. -/
theorem scaledMs_eq (cupsMs : UInt32) (ov : BrewOverrides) :
    scaledMsChecked cupsMs ov =
      if positiveSum ov.volumes < 2 ^ 31 then truncU32 (cupsMs.toNat * durationFactor ov)
      else none := by
  rw [scaledMsChecked]
  by_cases hactive : ov.active = true
  · have hfold := @foldlM_addPositive ov.volumes 0 le_rfl
    have hstart : (0 : Int32).toInt + positiveSum ov.volumes = positiveSum ov.volumes :=
      zero_add _
    rw [hstart] at hfold
    rw [if_pos hactive, applyOverrideScaleChecked]
    have hstrength : (if ov.strength > 0 then 1 + 15 / 100 * (ov.strength.toInt : ℚ) else 1) =
        1 + 15 / 100 * (max ov.strength.toInt 0 : ℤ) := by
      by_cases hpos : ov.strength > 0
      · have hlt : 0 < ov.strength.toInt := Int32.lt_iff_toInt_lt.mp hpos
        rw [if_pos hpos, max_eq_left hlt.le]
      · have hle : ov.strength.toInt ≤ 0 := not_lt.mp fun h => hpos (Int32.lt_iff_toInt_lt.mpr h)
        rw [if_neg hpos, max_eq_right hle]
        norm_num
    by_cases hvolumes : positiveSum ov.volumes < 2 ^ 31
    · obtain ⟨sum, hsum, hvalue⟩ := hfold.1 hvolumes
      have hfluid : fluidTotalChecked ov = some sum := hsum
      have hpositive : sum > 0 ↔ 0 < positiveSum ov.volumes := by
        rw [← hvalue]
        exact Int32.lt_iff_toInt_lt
      rw [if_pos hvolumes, hfluid]
      simp only [Option.bind_eq_bind, Option.bind_some, hstrength, hvalue, hpositive,
        durationFactor]
    · have hnone : fluidTotalChecked ov = none := by
        rw [← Option.not_isSome_iff_eq_none]
        exact fun hsome => hvolumes (hfold.2 hsome)
      rw [if_neg hvolumes, hnone]
      rfl
  · obtain ⟨hsum, hfactor⟩ := durationFactor_of_not_active (Bool.eq_false_of_not_eq_true hactive)
    have hword := cupsMs.toNat_lt
    have hfloor : ⌊(cupsMs.toNat : ℚ)⌋ = (cupsMs.toNat : ℤ) := Int.floor_natCast _
    rw [if_neg hactive, hsum, if_pos (by norm_num), hfactor, mul_one, truncU32, hfloor,
      if_pos (by omega)]
    congr 1
    rw [← UInt32.toNat_inj, UInt32.ofInt, UInt32.toNat_ofNat']
    omega

/-! ## The whole brew -/

/-- The ramp that the brew takes. -/
def Core.brewRamp (c : Core) : BrewRamp :=
  findRamp ((c.brew.arg.recipe.map Recipe.category).getD .coffee)

/-- Its duration for the number of cups. -/
def Core.cupsMs (c : Core) : UInt32 :=
  if c.brew.arg.twoCups then c.brewRamp.totalMs * 2 else c.brewRamp.totalMs

/-- The registers that a brew reads do not hold too much for it. -/
structure BrewInRange (c : Core) : Prop where
  volumes : positiveSum (readOverrides c.device.toStorage c.family).volumes < 2 ^ 31
  duration : c.cupsMs.toNat * durationFactor (readOverrides c.device.toStorage c.family) <
    c.brewRamp.limit + 1
  counters : CountersFit c c.brew.arg.selector

/-- A brew is about to start: its recipe is one of the family, and nobody has cancelled it. -/
structure AboutToBrew (c : Core) : Prop where
  cancel : c.brew.cancel = false
  recipe : ∃ recipe ∈ c.family.recipes,
    c.brew.arg.recipe = some recipe ∧ c.brew.arg.selector = recipe.selector

theorem limit_lt (ramp : BrewRamp) : ramp.limit < 2 ^ 32 := by
  rw [BrewRamp.limit]
  split <;> norm_num

theorem brewRunChecked_eq (c : Core) :
    brewRunChecked c =
      (scaledMsChecked c.cupsMs (readOverrides c.device.toStorage c.family)).map fun totalMs =>
        .ofRamp c.brewRamp totalMs c.brew.arg c.family.processBrewing c.family.processReady := by
  have hmem : c.brewRamp ∈ RAMPS := findRamp_mem _
  have hcups : cupsMsChecked c.brewRamp c.brew.arg.twoCups = some c.cupsMs := by
    rw [Core.cupsMs]
    generalize c.brewRamp = ramp at hmem
    simp only [RAMPS, List.mem_cons, List.not_mem_nil, or_false] at hmem
    cases c.brew.arg.twoCups <;> rcases hmem with rfl | rfl | rfl | rfl | rfl | rfl <;> rfl
  have hweights : c.brewRamp.stages.foldlM (fun sum st => addU32 sum st.weight.toUInt32) 0 =
      some (c.brewRamp.stages.foldl (fun sum st => sum + st.weight.toUInt32) 0) := by
    generalize c.brewRamp = ramp at hmem
    simp only [RAMPS, List.mem_cons, List.not_mem_nil, or_false] at hmem
    rcases hmem with rfl | rfl | rfl | rfl | rfl | rfl <;> rfl
  rw [Core.brewRamp] at hcups hweights
  rw [brewRunChecked]
  simp only [Option.bind_eq_bind, hcups, hweights, Option.bind_some]
  cases scaledMsChecked c.cupsMs (readOverrides c.device.toStorage c.family) <;> rfl

theorem ofRamp_weightSum {ramp : BrewRamp} (hramp : ramp ∈ RAMPS) (totalMs : UInt32)
    (arg : BrewArg) (brewCode readyCode : Int16) :
    (BrewRun.ofRamp ramp totalMs arg brewCode readyCode).weightSum = 10 := by
  simp only [RAMPS, List.mem_cons, List.not_mem_nil, or_false] at hramp
  rcases hramp with rfl | rfl | rfl | rfl | rfl | rfl <;> rfl

theorem AboutToBrew.selector_le {c : Core} (h : AboutToBrew c) : c.brew.arg.selector ≤ 10 := by
  obtain ⟨recipe, hrecipe, -, hselector⟩ := h.recipe
  rw [hselector]
  exact selector_le_of_mem_recipes _ recipe hrecipe

/-- With a duration the brew gets to its first stage. -/
theorem brewKeepsInRange_of_scaled {c : Core} (h : AboutToBrew c) {totalMs : UInt32}
    (htotal : scaledMsChecked c.cupsMs (readOverrides c.device.toStorage c.family) =
      some totalMs) :
    BrewKeepsInRange c ↔ totalMs.toNat ≤ c.brewRamp.limit ∧
      CountersFit c c.brew.arg.selector := by
  have hmem : c.brewRamp ∈ RAMPS := findRamp_mem _
  let run := BrewRun.ofRamp c.brewRamp totalMs c.brew.arg c.family.processBrewing
    c.family.processReady
  have hrun : brewRunChecked c = some run := by
    rw [brewRunChecked_eq, htotal]
    rfl
  let c₁ := nivonaFsmSetManipulation (nivonaFsmSetInfo (nivonaFsmSetProgress
    (nivonaFsmSetProcess c run.brewCode run.arg.selector.toUInt16.toInt16) 0) 0) MANIP_NONE
  have hentry : brewMoveChecked (c, some .entry) = some (c₁, some (.stage run 0 0)) := by
    simp only [brewMoveChecked, brewTaskStepChecked, Option.bind_eq_bind, hrun]
    rfl
  have hten : run.weightSum = 10 := ofRamp_weightSum hmem totalMs _ _ _
  have hinputs : c₁.brewInputs = c.brewInputs := rfl
  have hzero : (0 : UInt32).toNat * 100 < 2 ^ 32 := by decide
  rw [BrewKeepsInRange, total_of_some hentry,
    total_stage_iff hten h.selector_le h.cancel List.drop_zero hinputs hzero,
    ← rampFits_iff hmem]
  rfl

/-- Without one it is stopped at its entry. -/
theorem not_brewKeepsInRange_of_scaled {c : Core}
    (hnone : scaledMsChecked c.cupsMs (readOverrides c.device.toStorage c.family) = none) :
    ¬BrewKeepsInRange c := by
  have hrun : brewRunChecked c = none := by
    rw [brewRunChecked_eq, hnone]
    rfl
  have hentry : brewMoveChecked (c, some .entry) = none := by
    simp only [brewMoveChecked, brewTaskStepChecked, Option.bind_eq_bind, hrun]
    rfl
  exact not_total_of_none hentry

/-- A brew that runs alone keeps all its numbers in their types exactly when neither the
volumes nor the duration that its overrides ask for is too great, and no counter that it
increments is at its greatest. -/
theorem brewKeepsInRange_iff {c : Core} (h : AboutToBrew c) :
    BrewKeepsInRange c ↔ BrewInRange c := by
  let ov := readOverrides c.device.toStorage c.family
  let exact : ℚ := c.cupsMs.toNat * durationFactor ov
  have hscaled := scaledMs_eq c.cupsMs ov
  constructor
  · intro hkeeps
    by_cases hvolumes : positiveSum ov.volumes < 2 ^ 31
    · rw [if_pos hvolumes] at hscaled
      cases htrunc : truncU32 exact with
      | none =>
          exact absurd hkeeps (not_brewKeepsInRange_of_scaled (hscaled.trans htrunc))
      | some totalMs =>
          obtain ⟨hlimit, hcounters⟩ :=
            (brewKeepsInRange_of_scaled h (hscaled.trans htrunc)).mp hkeeps
          have hvalue := (truncU32_some htrunc).2
          have hfloor : ⌊exact⌋ ≤ (c.brewRamp.limit : ℤ) := by omega
          have hlt := Int.lt_floor_add_one exact
          refine ⟨hvolumes, hlt.trans_le ?_, hcounters⟩
          exact_mod_cast add_le_add_left hfloor 1
    · rw [if_neg hvolumes] at hscaled
      exact absurd hkeeps (not_brewKeepsInRange_of_scaled hscaled)
  · rintro ⟨hvolumes, hduration, hcounters⟩
    rw [if_pos hvolumes] at hscaled
    have hlimit := limit_lt c.brewRamp
    have hnonneg : 0 ≤ ⌊exact⌋ := by
      rw [Int.floor_nonneg]
      exact mul_nonneg (Nat.cast_nonneg _) (durationFactor_nonneg ov)
    have hfloor : ⌊exact⌋ < (c.brewRamp.limit + 1 : ℤ) := by
      rw [Int.floor_lt]
      exact_mod_cast hduration
    have htrunc : truncU32 exact = some (UInt32.ofInt ⌊exact⌋) :=
      if_pos ⟨hnonneg, by omega⟩
    have hvalue := (truncU32_some htrunc).2
    exact (brewKeepsInRange_of_scaled h (hscaled.trans htrunc)).mpr ⟨by omega, hcounters⟩

/-- A brew that is started is in such a state. -/
theorem aboutToBrew_of_start {c : Core} {processValue : Int16} {twoCups : Bool}
    (h : (nivonaBrewStart c processValue twoCups).2 = true) :
    AboutToBrew (nivonaBrewStart c processValue twoCups).1 := by
  rw [nivonaBrewStart] at h ⊢
  cases hlock : c.brew.lockReady with
  | false => simp [hlock] at h
  | true =>
      cases hresolve : brewResolve c processValue with
      | none => simp [hlock, hresolve] at h
      | some found =>
          obtain ⟨sel, recipe⟩ := found
          obtain ⟨r, hfind, hpair⟩ := Option.map_eq_some_iff.mp hresolve
          obtain ⟨rfl, rfl⟩ := Prod.mk.inj hpair
          have hmem : r ∈ c.family.recipes := List.mem_of_find?_eq_some hfind
          have hsel : (r.selector == processValue.toUInt16.toUInt8) = true :=
            List.find?_some (p := fun r : Recipe =>
              r.selector == processValue.toUInt16.toUInt8) hfind
          simp only [hlock, hresolve, Bool.not_true, Bool.false_eq_true, if_false] at h ⊢
          cases hcycle : nivonaMaintCycleActive c with
          | true => simp [hcycle] at h
          | false =>
              cases hprompt : brewPromptRefuses c with
              | true => simp [hcycle, hprompt] at h
              | false =>
                  simp only [hcycle, hprompt, Bool.false_eq_true, if_false] at h ⊢
                  rw [brewCommit] at h ⊢
                  cases hactive : c.brew.active with
                  | true => simp [hactive] at h
                  | false =>
                      cases htask : c.taskResults 0 with
                      | false => simp [hactive, Core.xTaskCreate, htask] at h
                      | true =>
                          simp only [Core.xTaskCreate, htask, Bool.false_eq_true, if_false, if_true]
                          exact ⟨rfl, r, hmem, rfl, (beq_iff_eq.mp hsel).symm⟩

/-- A new machine that starts an espresso. -/
def Core.plainEspresso : Core := (nivonaBrewStart Machine.factoryFresh.core 0 false).1

theorem brewKeepsInRange_plainEspresso : BrewKeepsInRange Core.plainEspresso := by
  have hstart : AboutToBrew Core.plainEspresso := aboutToBrew_of_start (by decide +kernel)
  refine (brewKeepsInRange_iff hstart).mpr ⟨by decide +kernel, ?_, ⟨?_, fun h => ?_⟩⟩
  · have hov : readOverrides Core.plainEspresso.device.toStorage Core.plainEspresso.family =
        ⟨-1, -1, -1, -1, -1, -1⟩ := by decide +kernel
    have hcups : Core.plainEspresso.cupsMs = 20000 := by decide +kernel
    have hlimit : Core.plainEspresso.brewRamp.limit = 42949673 := by decide +kernel
    have hbase : (20000 : UInt32).toNat = 20000 := rfl
    rw [hov, hcups, hlimit, (durationFactor_of_not_active rfl).2, hbase]
    norm_num
  · have hall : ((brewCounterIds Core.plainEspresso.stats
        Core.plainEspresso.brew.arg.selector).all fun id =>
          nivonaStoreGetNum Core.plainEspresso.device.toStorage id != INT32_MAX) = true := by
      decide +kernel
    intro id hid
    simpa using List.all_eq_true.mp hall id hid
  · exact absurd h (by decide +kernel)

/-- The same machine after a client has asked for the greatest strength there is. -/
def Core.strongEspresso : Core :=
  (nivonaBrewStart (serve Machine.factoryFresh (.hw 9002 INT32_MAX)).core 0 false).1

/-- Its brew would take more milliseconds than the type holds. -/
theorem strongEspresso_overflows :
    AboutToBrew Core.strongEspresso ∧ ¬BrewKeepsInRange Core.strongEspresso := by
  have hcore : Core.strongEspresso = (nivonaBrewStart (Machine.factoryFresh.core.onStorage
      fun s => nivonaStoreSetNum s 9002 INT32_MAX) 0 false).1 := by
    rw [Core.strongEspresso, (serve_hw Machine.factoryFresh 9002 INT32_MAX).2]
  have hstart : AboutToBrew Core.strongEspresso := by
    rw [hcore]
    exact aboutToBrew_of_start (by decide +kernel)
  have hov : readOverrides Core.strongEspresso.device.toStorage Core.strongEspresso.family =
      ⟨INT32_MAX, -1, -1, -1, -1, -1⟩ := by
    rw [hcore]
    decide +kernel
  have hcups : Core.strongEspresso.cupsMs = 20000 := by
    rw [hcore]
    decide +kernel
  have hlimit : Core.strongEspresso.brewRamp.limit = 42949673 := by
    rw [hcore]
    decide +kernel
  refine ⟨hstart, fun hkeeps => ?_⟩
  have hduration := ((brewKeepsInRange_iff hstart).mp hkeeps).duration
  rw [hov, hcups, hlimit] at hduration
  have hfactor : durationFactor ⟨INT32_MAX, -1, -1, -1, -1, -1⟩ = 1 + 15 / 100 * 2147483647 := by
    decide +kernel
  have hbase : (20000 : UInt32).toNat = 20000 := rfl
  rw [hfactor, hbase] at hduration
  norm_num at hduration

end Nivona
