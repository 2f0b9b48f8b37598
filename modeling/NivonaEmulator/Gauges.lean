import Mathlib.Data.Finset.Insert
import Mathlib.Data.Fintype.Defs
import NivonaEmulator.Accounting
import NivonaEmulator.StoreMirror

/-!
# Gauges and warnings

Three gauges wear off at three paces, and each has a warning register of its
own.  A gauge that starts at 100 stays a percentage, and its warning says
whether the gauge is below its threshold, after any number of brews and cycles.
-/

namespace Nivona

/-- The gauges that wear off. -/
inductive Gauge
  | descale | brewUnit | filter
  deriving DecidableEq, Repr

instance : Fintype Gauge where
  elems := {.descale, .brewUnit, .filter}
  complete g := by cases g <;> decide

def Gauge.id : Gauge → Int16
  | .descale => 600
  | .brewUnit => 610
  | .filter => 640

def Gauge.warnId : Gauge → Int16
  | .descale => 601
  | .brewUnit => 611
  | .filter => 641

/-- Below this the warning is on. -/
def Gauge.threshold : Gauge → Int32
  | .descale => 20
  | .brewUnit => 20
  | .filter => 10

/-- The register table of the store. -/
abbrev NumTable := SlotTable Int16 Int32 NUM_CAP

/-- The gauge is a percentage, and its warning is on just below the threshold. -/
def GaugeOk (t : NumTable) (g : Gauge) : Prop :=
  ∃ v, t.get g.id = some v ∧ 0 ≤ v ∧ v ≤ 100 ∧
    t.get g.warnId = some (if v < g.threshold then 1 else 0)

/-- All gauges are full and all warnings off. -/
def Seeded (t : NumTable) : Prop :=
  ∀ g : Gauge, t.get g.id = some 100 ∧ t.get g.warnId = some 0

instance (t : NumTable) : Decidable (Seeded t) :=
  inferInstanceAs (Decidable (∀ g : Gauge,
    t.get g.id = some 100 ∧ t.get g.warnId = some 0))

/-! ## The registers of a gauge -/

theorem Gauge.id_ne_warnId (g g' : Gauge) : g.id ≠ g'.warnId := by
  revert g g'
  decide

theorem Gauge.id_injective : Function.Injective Gauge.id := by
  decide

theorem Gauge.warnId_injective : Function.Injective Gauge.warnId := by
  decide

theorem Gauge.ids_mem (g : Gauge) : g.id ∈ GAUGE_IDS ∧ g.warnId ∈ GAUGE_IDS := by
  revert g
  decide

/-- A full gauge is well above its threshold. -/
theorem Gauge.not_hundred_lt (g : Gauge) : ¬(100 : Int32) < g.threshold := by
  revert g
  decide

section

variable {t t' : NumTable} {g : Gauge}

theorem GaugeOk.congr (h : GaugeOk t g) (hid : t'.get g.id = t.get g.id)
    (hwarn : t'.get g.warnId = t.get g.warnId) : GaugeOk t' g := by
  obtain ⟨v, hv, h0, h100, hflag⟩ := h
  exact ⟨v, hid.trans hv, h0, h100, hwarn.trans hflag⟩

theorem Seeded.gaugeOk (h : Seeded t) (g : Gauge) : GaugeOk t g :=
  ⟨100, (h g).1, by decide, by decide, by rw [(h g).2, if_neg g.not_hundred_lt]⟩

/-- Setting a gauge to 100 and its warning to 0 is consistent again. -/
theorem GaugeOk.reset (h : GaugeOk t g) : GaugeOk ((t.put g.id 100).put g.warnId 0) g := by
  obtain ⟨v, hv, -, -, hwarn⟩ := h
  have hwarn' : (t.put g.id 100).get g.warnId = some (if v < g.threshold then 1 else 0) := by
    rw [SlotTable.get_put_of_ne _ (g.id_ne_warnId g).symm, hwarn]
  refine ⟨100, ?_, by decide, by decide, ?_⟩
  · rw [SlotTable.get_put_of_ne _ (g.id_ne_warnId g),
      SlotTable.get_put_self (SlotTable.not_fullFor_of_get hv)]
  · rw [SlotTable.get_put_self (SlotTable.not_fullFor_of_get hwarn'), if_neg g.not_hundred_lt]

/-- Registers of other gauges do not matter. -/
theorem GaugeOk.put_other (h : GaugeOk t g) {g' : Gauge} (hne : g ≠ g') (v w : Int32) :
    GaugeOk ((t.put g'.id v).put g'.warnId w) g := by
  apply h.congr
  · rw [SlotTable.get_put_of_ne _ (g.id_ne_warnId g'),
      SlotTable.get_put_of_ne _ (Gauge.id_injective.ne hne)]
  · rw [SlotTable.get_put_of_ne _ (Gauge.warnId_injective.ne hne),
      SlotTable.get_put_of_ne _ (g'.id_ne_warnId g).symm]

end

/-! ## Wear -/

/-- Wear of one gauge. -/
def Gauge.wear (g : Gauge) (s : Storage) : Storage :=
  batchWearGauge s g.id g.warnId g.threshold

theorem wearGauges_eq (ticks : Int32) (s : Storage) :
    wearGauges ticks s =
      (let s := Gauge.filter.wear s
       let s := if ticks &&& 1 = 0 then Gauge.brewUnit.wear s else s
       if ticks % 5 = 0 then Gauge.descale.wear s else s) := rfl

section

variable {s : Storage} {g : Gauge}

/-- A percentage above zero is lowered by one, and 0 stays. -/
theorem get_lowerGauge_self {v : Int32} (h : s.num.get g.id = some v) :
    (lowerGauge s g.id).num.get g.id = some (if v > 0 then v - 1 else v) := by
  have hget : nivonaStoreGetNum s g.id = v := by rw [nivonaStoreGetNum, h, Option.getD_some]
  rw [lowerGauge, hget]
  split
  · rw [num_batchSetNum, SlotTable.get_put_self (SlotTable.not_fullFor_of_get h)]
  · exact h

/-- Wear keeps a gauge and its warning in step. -/
theorem GaugeOk.wear (h : GaugeOk s.num g) : GaugeOk (g.wear s).num g := by
  obtain ⟨v, hv, h0, h100, hwarn⟩ := h
  let w := if v > 0 then v - 1 else v
  have hw : (lowerGauge s g.id).num.get g.id = some w := get_lowerGauge_self hv
  have hread : nivonaStoreGetNum (lowerGauge s g.id) g.id = w := by
    rw [nivonaStoreGetNum, hw, Option.getD_some]
  have hflag : (lowerGauge s g.id).num.get g.warnId =
      some (if v < g.threshold then 1 else 0) := by
    rw [get_lowerGauge_of_ne (g.id_ne_warnId g).symm, hwarn]
  have hrange : 0 ≤ w ∧ w ≤ 100 ∧ w ≤ v := by grind
  rw [Gauge.wear, batchWearGauge_eq, hread]
  split
  · rename_i hlow
    refine ⟨w, ?_, hrange.1, hrange.2.1, ?_⟩
    · rw [num_batchSetNum, SlotTable.get_put_of_ne _ (g.id_ne_warnId g), hw]
    · rw [num_batchSetNum, SlotTable.get_put_self (SlotTable.not_fullFor_of_get hflag),
        if_pos hlow]
  · -- a gauge that is not below its threshold was not below it before
    rename_i hhigh
    have hbefore : ¬v < g.threshold := by grind
    exact ⟨w, hw, hrange.1, hrange.2.1, by rw [hflag, if_neg hbefore, if_neg hhigh]⟩

theorem GaugeOk.wear_other (h : GaugeOk s.num g) {g' : Gauge} (hne : g ≠ g') :
    GaugeOk (g'.wear s).num g := by
  apply h.congr
  · exact get_batchWearGauge_of_ne (Gauge.id_injective.ne hne) (g.id_ne_warnId g') s _
  · exact get_batchWearGauge_of_ne (g'.id_ne_warnId g).symm (Gauge.warnId_injective.ne hne) s _

theorem GaugeOk.wear_any (h : GaugeOk s.num g) (g' : Gauge) : GaugeOk (g'.wear s).num g := by
  by_cases hne : g = g'
  · subst hne
    exact h.wear
  · exact h.wear_other hne

theorem GaugeOk.wearGauges (h : GaugeOk s.num g) (ticks : Int32) :
    GaugeOk (wearGauges ticks s).num g := by
  have hfilter := h.wear_any .filter
  rw [wearGauges_eq]
  dsimp only
  split_ifs
  · exact (hfilter.wear_any .brewUnit).wear_any .descale
  · exact hfilter.wear_any .descale
  · exact hfilter.wear_any .brewUnit
  · exact hfilter

end

/-! ## Completions -/

/-- Counters are no registers of a gauge. -/
theorem GaugeOk.countBrew {s : Storage} {g : Gauge} (h : GaugeOk s.num g) (f : FamilyId)
    (selector : UInt8) : GaugeOk (countBrew (nivonaStatsCurrent f) selector s).num g := by
  obtain ⟨hid, hwarn⟩ := g.ids_mem
  apply h.congr
  · exact get_countAll_of_not_mem (not_mem_brewCounterIds hid f selector) s
  · exact get_countAll_of_not_mem (not_mem_brewCounterIds hwarn f selector) s

theorem GaugeOk.applyWearAfterBrew {c : Core} {g : Gauge} (h : GaugeOk c.device.num g)
    (arg : BrewArg) : GaugeOk (applyWearAfterBrew arg c).device.num g := by
  rw [(applyWearAfterBrew_eq arg c).1]
  exact (GaugeOk.countBrew (s := nivonaStoreBatchBegin c.device.toStorage) h c.device.family
    arg.selector).wearGauges _

/-- A plan resets the two registers of a gauge, or none. -/
theorem plan_gauge {plan : CyclePlan} (hplan : plan ∈ PLANS) :
    plan.statPct = 0 ∧ plan.statWarn = 0 ∨
      ∃ g : Gauge, plan.statPct = g.id ∧ plan.statWarn = g.warnId := by
  have hall : ∀ plan ∈ PLANS, plan.statPct = 0 ∧ plan.statWarn = 0 ∨
      ∃ g : Gauge, plan.statPct = g.id ∧ plan.statWarn = g.warnId := by decide
  exact hall plan hplan

theorem Gauge.ids_ne_zero (g : Gauge) : g.id ≠ 0 ∧ g.warnId ≠ 0 := by
  revert g
  decide

/-- The counter of a cycle is no register of a gauge. -/
theorem GaugeOk.countCycle {t : NumTable} {g : Gauge} (h : GaugeOk t g) (f : FamilyId)
    {plan : CyclePlan} (hplan : plan ∈ PLANS) :
    GaugeOk ((cycleCounterIds (nivonaStatsCurrent f) plan).foldl
      (fun t id => t.put id ((t.get id).getD 0 + 1)) t) g := by
  obtain ⟨hid, hwarn⟩ := g.ids_mem
  have hid' := not_mem_cycleCounterIds hid f hplan
  have hwarn' := not_mem_cycleCounterIds hwarn f hplan
  simp only [cycleCounterIds] at hid' hwarn' ⊢
  split
  · rename_i hcounter
    rw [if_pos hcounter, List.mem_singleton] at hid' hwarn'
    exact h.congr (SlotTable.get_put_of_ne _ hid' _) (SlotTable.get_put_of_ne _ hwarn' _)
  · exact h

theorem GaugeOk.cycleComplete {c : Core} {g : Gauge} (h : GaugeOk c.device.num g)
    {plan : CyclePlan} (hplan : plan ∈ PLANS) : GaugeOk (cycleComplete plan c).device.num g := by
  have hcounted := h.countCycle c.device.family hplan
  rw [num_cycleComplete]
  rcases plan_gauge hplan with ⟨hpct, hwarn⟩ | ⟨g', hpct, hwarn⟩
  · rw [hpct, hwarn]
    exact hcounted
  · simp only [hpct, hwarn, ne_eq, g'.ids_ne_zero, not_false_eq_true, if_true]
    by_cases hne : g = g'
    · subst hne
      exact hcounted.reset
    · exact hcounted.put_other hne _ _

/-! ## The first boot -/

/-- A boot on flash without registers seeds every gauge. -/
theorem seeded_boot (it : NvsIterator) {nvs : Nvs} (taskResults : ℕ → Bool)
    (hnone : nvs .num = none) :
    Seeded (Concurrent.boot it nvs taskResults).core.device.num := by
  let d := nivonaConsumablesInit (Device.powerOn nvs)
  let stats := nivonaStatsCurrent d.family
  let loaded := seedProfiles (nvsLoadAll it (Storage.blank d.nvs))
  have hnum : d.nvs .num = none := (nivonaConsumablesInit_frame _).2.trans hnone
  have hempty (id : Int16) : loaded.num.get id = none := by
    rw [(seedProfiles_num _).1, nvsLoadAll_blank]
    simp [Nvs.entryFind, hnum, readEntries, SlotTable.load]
  have hnodup : ((numSeeds stats).map Prod.fst).Nodup := nodup_numSeeds d.family
  have hmem (g : Gauge) : (g.id, 100) ∈ numSeeds stats ∧ (g.warnId, 0) ∈ numSeeds stats := by
    cases g <;> simp [numSeeds, PCT_IDS, WARN_IDS, Gauge.id, Gauge.warnId]
  have hboot : (Concurrent.boot it nvs taskResults).core.device.num =
      (Runs.run seedNumStep loaded (numSeeds stats)).num := by
    have hdevice := appMain_device it nvs taskResults
    rw [← seedDefaults_eq]
    exact congrArg (fun d : Device => d.num) hdevice
  have hfit : SeedsFit it stats d.nvs := seedsFit_of_num_none it stats hnum
  intro g
  rw [hboot]
  exact ⟨get_seedNums_of_mem (hempty _) (hmem g).1 hnodup hfit,
    get_seedNums_of_mem (hempty _) (hmem g).2 hnodup hfit⟩

/-! ## Runs -/

/-- A step of a session keeps every gauge in order, as long as no client writes
or erases one of its registers. -/
theorem gaugeOk_step {s : Concurrent} {g : Gauge} (hdata : TaskData s.core)
    (h : GaugeOk s.core.device.num g) {a : Action} (hrestart : a.isRestart = false)
    (htouch : ∀ id ∈ GAUGE_IDS, a.touches id = false) :
    GaugeOk (concurrentStep s a).core.device.num g := by
  obtain ⟨hnum, -⟩ := sameRegisters_step s a
  obtain ⟨hid, hwarn⟩ := g.ids_mem
  have hidTouch := htouch _ hid
  have hwarnTouch := htouch _ hwarn
  rw [hnum]
  rcases registerEvent_cases s.core a with he | ⟨i, run, -, hpc, he⟩ | ⟨i, plan, -, hpc, he⟩ |
    ⟨id, v, rfl, he⟩ | ⟨id, rfl, he⟩ | ⟨it, rfl, -⟩
  · rw [he]
    exact h
  · rw [he]
    exact h.applyWearAfterBrew run.arg
  · rw [he]
    exact h.cycleComplete (hdata.cycles _ (List.mem_of_getElem? hpc) plan rfl)
  · rw [he]
    simp only [Action.touches, beq_eq_false_iff_ne, ne_eq] at hidTouch hwarnTouch
    exact h.congr (SlotTable.get_put_of_ne _ (Ne.symm hidTouch) v)
      (SlotTable.get_put_of_ne _ (Ne.symm hwarnTouch) v)
  · rw [he]
    simp only [Action.touches, beq_eq_false_iff_ne, ne_eq] at hidTouch hwarnTouch
    exact h.congr (SlotTable.get_remove_of_ne _ (Ne.symm hidTouch))
      (SlotTable.get_remove_of_ne _ (Ne.symm hwarnTouch))
  · exact absurd hrestart (by simp [Action.isRestart])

/-- Neither a restart nor a client's write or erase of a gauge or warning. -/
def Action.SparesGauges (a : Action) : Prop :=
  a.isRestart = false ∧ ∀ id ∈ GAUGE_IDS, a.touches id = false

instance (a : Action) : Decidable a.SparesGauges :=
  have : Decidable (∀ id ∈ GAUGE_IDS, a.touches id = false) := List.decidableBAll _ _
  inferInstanceAs (Decidable (_ ∧ _))

/-- In every state that a session reaches from the seeded gauges, whatever
brews, cycles, cancels and family switches are interleaved, each gauge is a
percentage and its warning is 1 just below the threshold and 0 otherwise. -/
theorem gauges_consistent (it : NvsIterator) (nvs : Nvs) (taskResults : ℕ → Bool)
    (hseeded : Seeded (Concurrent.boot it nvs taskResults).core.device.num) (actions : List Action)
    (hspare : ∀ a ∈ actions, a.SparesGauges) (g : Gauge) :
    GaugeOk (Runs.run concurrentStep (Concurrent.boot it nvs taskResults) actions).core.device.num
      g := by
  have hrun : Runs.Guarded concurrentStep (fun _ a => a.SparesGauges)
      (Concurrent.boot it nvs taskResults) actions :=
    Runs.guarded_of_forall _ fun a ha _ => hspare a ha
  have hinv := hrun.invariant
    (P := fun s : Concurrent =>
      (TaskData s.core ∧ CallData s.calls) ∧ GaugeOk s.core.device.num g)
    (fun s a h ha => ⟨taskData_step s a h.1, gaugeOk_step h.1.1 h.2 ha.1 ha.2⟩)
    ⟨taskData_run it nvs taskResults [], hseeded.gaugeOk g⟩
  exact hinv.2

/-- After one brew of a new machine the filter gauge is a percentage still. -/
theorem gauges_consistent_waterBrew :
    GaugeOk (Runs.run concurrentStep
      (Concurrent.boot NvsIterator.storageOrder Nvs.empty fun _ => true)
      (waterBrew ++ [.op (.brewTask 0)])).core.device.num .filter :=
  gauges_consistent NvsIterator.storageOrder Nvs.empty (fun _ => true) (by decide +kernel) _
    (by decide) .filter

end Nivona
