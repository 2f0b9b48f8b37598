import Mathlib.Data.List.Lattice
import NivonaEmulator.MaintCycle

/-!
# Counters and gauges

A completed brew counts in at most three registers and then wears the gauges; a
completed cycle counts in at most one and resets a gauge.  What a completion
does is stated here one register at a time.
-/

namespace Nivona

/-! ## The registers a completion counts in -/

/-- Gauges, and the warnings that belong to them. -/
def GAUGE_IDS : List Int16 := [600, 601, 610, 611, 640, 641]

/-- Counters of a completed brew: the recipe's, the total and the one for brews
by app, as far as the family has them. -/
def brewCounterIds (stats : Stats) (selector : UInt8) : List Int16 :=
  (if nivonaStatsHasRecipeCounter stats selector then [200 + selector.toUInt16.toInt16] else []) ++
    (if stats.totalId ≠ 0 then [stats.totalId] else []) ++
    (if stats.viaAppId ≠ 0 then [stats.viaAppId] else [])

/-- Counter of a completed cycle, if the family has one for its plan. -/
def cycleCounterIds (stats : Stats) (plan : CyclePlan) : List Int16 :=
  if resolveStatCounter stats plan.statCounter ≠ 0 then
    [resolveStatCounter stats plan.statCounter]
  else []

/-- Number of registers in memory. -/
def Storage.numCount (s : Storage) : ℕ := (SlotTable.keys s.num.slots).length

/-! ## Stages of a completed brew -/

/-- The counters of a completed brew. -/
def countBrew (stats : Stats) (selector : UInt8) (s : Storage) : Storage :=
  (brewCounterIds stats selector).foldl batchBump s

/-- The gauges of a completed brew. -/
def wearGauges (ticks : Int32) (s : Storage) : Storage :=
  let s := batchWearGauge s 640 641 10
  let s := if ticks &&& 1 = 0 then batchWearGauge s 610 611 20 else s
  if ticks % 5 = 0 then batchWearGauge s 600 601 20 else s

/-- The counter that paces the wear. -/
def wearTicks (stats : Stats) (localTick : Int32) (s : Storage) : Int32 :=
  if stats.totalId ≠ 0 then nivonaStoreGetNum s stats.totalId else localTick + 1

/-- A completed brew counts, then wears. -/
theorem applyWearAfterBrew_count (arg : BrewArg) (c : Core) :
    let s := countBrew c.stats arg.selector (nivonaStoreBatchBegin c.device.toStorage)
    let ticks := wearTicks c.stats c.localWearTick s
    applyWearAfterBrew arg c = { c with
      device := { c.device with toStorage := nivonaStoreBatchEnd (wearGauges ticks s) }
      localWearTick := ticks } := by
  intro s ticks
  have hs : s = (let s := nivonaStoreBatchBegin c.device.toStorage
      let s := if nivonaStatsHasRecipeCounter c.stats arg.selector then
        batchBump s (200 + arg.selector.toUInt16.toInt16) else s
      let s := if c.stats.totalId ≠ 0 then batchBump s c.stats.totalId else s
      if c.stats.viaAppId ≠ 0 then batchBump s c.stats.viaAppId else s) := by
    simp only [s, countBrew, brewCounterIds, List.foldl_append]
    split_ifs <;> rfl
  simp only [ticks]
  rw [hs]
  rfl

/-- What it leaves in memory. -/
theorem applyWearAfterBrew_eq (arg : BrewArg) (c : Core) :
    let s := countBrew c.stats arg.selector (nivonaStoreBatchBegin c.device.toStorage)
    (applyWearAfterBrew arg c).device.num =
        (wearGauges (wearTicks c.stats c.localWearTick s) s).num ∧
      (applyWearAfterBrew arg c).localWearTick = wearTicks c.stats c.localWearTick s := by
  intro s
  rw [applyWearAfterBrew_count]
  exact ⟨rfl, rfl⟩

/-! ## One register through the stages -/

section

variable {s : Storage} {id : Int16} {k : Int16}

@[simp] theorem num_batchSetNum (s : Storage) (id : Int16) (v : Int32) :
    (nivonaStoreBatchSetNum s id v).num = s.num.put id v := by
  by_cases hopen : s.batchOpen = true <;> simp [nivonaStoreBatchSetNum, setNumMem, hopen]

theorem num_batchBump (s : Storage) (id : Int16) :
    (batchBump s id).num = s.num.put id (nivonaStoreGetNum s id + 1) :=
  num_batchSetNum s id _

theorem get_batchBump_of_ne (h : k ≠ id) : (batchBump s id).num.get k = s.num.get k := by
  rw [num_batchBump, SlotTable.get_put_of_ne _ h]

theorem numCount_le_batchBump (s : Storage) (id : Int16) :
    s.numCount ≤ (batchBump s id).numCount := by
  rw [Storage.numCount, Storage.numCount, num_batchBump]
  exact SlotTable.length_keys_le_put _ _ _

theorem numCount_le_countAll (ids : List Int16) (s : Storage) :
    s.numCount ≤ (ids.foldl batchBump s).numCount := by
  induction ids generalizing s with
  | nil => exact le_rfl
  | cons id ids ih => exact (numCount_le_batchBump s id).trans (ih (batchBump s id))

theorem get_countAll_of_not_mem {ids : List Int16} (h : k ∉ ids) (s : Storage) :
    (ids.foldl batchBump s).num.get k = s.num.get k := by
  induction ids generalizing s with
  | nil => rfl
  | cons id ids ih =>
      rw [List.mem_cons, not_or] at h
      rw [List.foldl_cons, ih h.2, get_batchBump_of_ne h.1]

/-- Distinct counters each go up by one, as long as the table has room. -/
theorem get_countAll_of_mem {ids : List Int16} (hnodup : ids.Nodup) (hk : k ∈ ids)
    (hroom : (ids.foldl batchBump s).numCount < NUM_CAP) :
    (ids.foldl batchBump s).num.get k = some (nivonaStoreGetNum s k + 1) := by
  induction ids generalizing s with
  | nil => exact absurd hk List.not_mem_nil
  | cons id ids ih =>
      rw [List.nodup_cons] at hnodup
      rw [List.foldl_cons] at hroom ⊢
      rcases List.mem_cons.mp hk with rfl | hmem
      · have hfirst := (numCount_le_countAll ids (batchBump s k)).trans_lt hroom
        rw [Storage.numCount, num_batchBump] at hfirst
        rw [get_countAll_of_not_mem hnodup.1, num_batchBump,
          SlotTable.get_put_of_length_lt hfirst]
      · have hne : k ≠ id := by
          rintro rfl
          exact hnodup.1 hmem
        rw [ih hnodup.2 hmem hroom, nivonaStoreGetNum, nivonaStoreGetNum, get_batchBump_of_ne hne]

theorem numCount_le_batchSetNum (s : Storage) (id : Int16) (v : Int32) :
    s.numCount ≤ (nivonaStoreBatchSetNum s id v).numCount := by
  rw [Storage.numCount, Storage.numCount, num_batchSetNum]
  exact SlotTable.length_keys_le_put _ _ _

/-- Lower a gauge that is above zero. -/
def lowerGauge (s : Storage) (gauge : Int16) : Storage :=
  if nivonaStoreGetNum s gauge > 0 then
    nivonaStoreBatchSetNum s gauge (nivonaStoreGetNum s gauge - 1)
  else s

theorem batchWearGauge_eq (s : Storage) (gauge warn : Int16) (threshold : Int32) :
    batchWearGauge s gauge warn threshold =
      if nivonaStoreGetNum (lowerGauge s gauge) gauge < threshold then
        nivonaStoreBatchSetNum (lowerGauge s gauge) warn 1
      else lowerGauge s gauge := rfl

theorem get_lowerGauge_of_ne {gauge : Int16} (h : k ≠ gauge) (s : Storage) :
    (lowerGauge s gauge).num.get k = s.num.get k := by
  rw [lowerGauge]
  split
  · rw [num_batchSetNum, SlotTable.get_put_of_ne _ h]
  · rfl

/-- Wear touches the gauge and its warning. -/
theorem get_batchWearGauge_of_ne {gauge warn : Int16} (hgauge : k ≠ gauge) (hwarn : k ≠ warn)
    (s : Storage) (threshold : Int32) :
    (batchWearGauge s gauge warn threshold).num.get k = s.num.get k := by
  rw [batchWearGauge_eq]
  split
  · rw [num_batchSetNum, SlotTable.get_put_of_ne _ hwarn, get_lowerGauge_of_ne hgauge]
  · exact get_lowerGauge_of_ne hgauge s

theorem numCount_le_batchWearGauge (s : Storage) (gauge warn : Int16) (threshold : Int32) :
    s.numCount ≤ (batchWearGauge s gauge warn threshold).numCount := by
  have hlower : s.numCount ≤ (lowerGauge s gauge).numCount := by
    rw [lowerGauge]
    split
    · exact numCount_le_batchSetNum s _ _
    · exact le_rfl
  rw [batchWearGauge_eq]
  split
  · exact hlower.trans (numCount_le_batchSetNum _ _ _)
  · exact hlower

theorem get_wearGauges_of_not_mem (hk : k ∉ GAUGE_IDS) (ticks : Int32) (s : Storage) :
    (wearGauges ticks s).num.get k = s.num.get k := by
  simp only [GAUGE_IDS, List.mem_cons, List.not_mem_nil, or_false, not_or] at hk
  obtain ⟨h600, h601, h610, h611, h640, h641⟩ := hk
  simp only [wearGauges]
  split_ifs <;> simp only [get_batchWearGauge_of_ne h600 h601, get_batchWearGauge_of_ne h610 h611,
    get_batchWearGauge_of_ne h640 h641]

theorem numCount_le_wearGauges (ticks : Int32) (s : Storage) :
    s.numCount ≤ (wearGauges ticks s).numCount := by
  have hle := numCount_le_batchWearGauge
  simp only [wearGauges]
  split_ifs
  · exact (hle _ _ _ _).trans ((hle _ _ _ _).trans (hle _ _ _ _))
  · exact (hle _ _ _ _).trans (hle _ _ _ _)
  · exact (hle _ _ _ _).trans (hle _ _ _ _)
  · exact hle _ _ _ _

end

/-! ## Completions -/

theorem numCount_congr {s s' : Storage} (h : s.num = s'.num) : s.numCount = s'.numCount := by
  rw [Storage.numCount, Storage.numCount, h]

/-- A completed brew adds one to each of its counters and to no other register,
gauges and warnings apart. -/
theorem get_applyWearAfterBrew {arg : BrewArg} {c : Core} {k : Int16} (hk : k ∉ GAUGE_IDS)
    (hnodup : (brewCounterIds c.stats arg.selector).Nodup)
    (hroom : (applyWearAfterBrew arg c).device.numCount < NUM_CAP) :
    (applyWearAfterBrew arg c).device.num.get k =
      if k ∈ brewCounterIds c.stats arg.selector then
        some (nivonaStoreGetNum c.device.toStorage k + 1)
      else c.device.num.get k := by
  obtain ⟨hnum, -⟩ := applyWearAfterBrew_eq arg c
  rw [numCount_congr hnum] at hroom
  have hcounted := (numCount_le_wearGauges _ _).trans_lt hroom
  rw [hnum, get_wearGauges_of_not_mem hk]
  split
  · rename_i hmem
    exact get_countAll_of_mem hnodup hmem hcounted
  · rename_i hmem
    exact get_countAll_of_not_mem hmem _

/-- The registers of a completed cycle. -/
theorem num_cycleComplete (plan : CyclePlan) (c : Core) :
    (cycleComplete plan c).device.num =
      (let t := (cycleCounterIds c.stats plan).foldl (fun t id => t.put id ((t.get id).getD 0 + 1))
        c.device.num
      let t := if plan.statPct ≠ 0 then t.put plan.statPct 100 else t
      if plan.statWarn ≠ 0 then t.put plan.statWarn 0 else t) := by
  simp only [cycleComplete, cycleCounterIds]
  split_ifs <;> rfl

/-- Plans reset a gauge and its warning, or neither. -/
theorem plan_gauges {plan : CyclePlan} (hplan : plan ∈ PLANS) :
    (plan.statPct ≠ 0 → plan.statPct ∈ GAUGE_IDS) ∧
      (plan.statWarn ≠ 0 → plan.statWarn ∈ GAUGE_IDS) := by
  have hall : ∀ plan ∈ PLANS, (plan.statPct ≠ 0 → plan.statPct ∈ GAUGE_IDS) ∧
      (plan.statWarn ≠ 0 → plan.statWarn ∈ GAUGE_IDS) := by decide
  exact hall plan hplan

/-- A completed cycle adds one to its counter and to no other register, gauges
and warnings apart. -/
theorem get_cycleComplete {plan : CyclePlan} (hplan : plan ∈ PLANS) {c : Core} {k : Int16}
    (hk : k ∉ GAUGE_IDS) (hroom : (cycleComplete plan c).device.numCount < NUM_CAP) :
    (cycleComplete plan c).device.num.get k =
      if k ∈ cycleCounterIds c.stats plan then
        some (nivonaStoreGetNum c.device.toStorage k + 1)
      else c.device.num.get k := by
  obtain ⟨hpct, hwarn⟩ := plan_gauges hplan
  have hne {id : Int16} (hid : id ∈ GAUGE_IDS) : k ≠ id := by
    rintro rfl
    exact hk hid
  let t := (cycleCounterIds c.stats plan).foldl (fun t id => t.put id ((t.get id).getD 0 + 1))
    c.device.num
  have hget : (cycleComplete plan c).device.num.get k = t.get k := by
    rw [num_cycleComplete]
    simp only
    split_ifs with h1 h2 h2
    · rw [SlotTable.get_put_of_ne _ (hne (hwarn h1)), SlotTable.get_put_of_ne _ (hne (hpct h2))]
    · rw [SlotTable.get_put_of_ne _ (hne (hwarn h1))]
    · rw [SlotTable.get_put_of_ne _ (hne (hpct h2))]
    · rfl
  have hsize : (SlotTable.keys t.slots).length < NUM_CAP := by
    refine lt_of_le_of_lt ?_ hroom
    rw [Storage.numCount, num_cycleComplete]
    simp only
    split_ifs
    · exact (SlotTable.length_keys_le_put t _ _).trans (SlotTable.length_keys_le_put _ _ _)
    · exact SlotTable.length_keys_le_put t _ _
    · exact SlotTable.length_keys_le_put t _ _
    · exact le_rfl
  rw [hget]
  simp only [t, cycleCounterIds] at hsize ⊢
  split
  · simp only [List.foldl_cons, List.foldl_nil, List.mem_singleton]
    rename_i hid
    rw [if_pos hid] at hsize
    split
    · rename_i hkid
      subst hkid
      exact SlotTable.get_put_of_length_lt hsize
    · rename_i hkid
      exact SlotTable.get_put_of_ne _ hkid _
  · simp

/-! ## Ids of the families -/

/-- Selectors of recipes. -/
theorem selector_le_of_mem_recipes (f : FamilyId) :
    ∀ r ∈ (familyRow f).recipes, r.selector ≤ 10 := by
  revert f
  decide

/-- The counters of a brew are distinct, since the mask's bit of the total is
never the bit of a recipe. -/
theorem nodup_brewCounterIds (f : FamilyId) {selector : UInt8} (h : selector ≤ 10) :
    (brewCounterIds (nivonaStatsCurrent f) selector).Nodup := by
  have hall : ∀ n < 11, ∀ f : FamilyId,
      (brewCounterIds (nivonaStatsCurrent f) (UInt8.ofNat n)).Nodup := by decide
  have hn : selector.toNat < 11 := by
    have := UInt8.le_iff_toNat_le.mp h
    simpa using Nat.lt_succ_of_le this
  have hf := hall selector.toNat hn f
  rwa [UInt8.ofNat_toNat] at hf

/-- Counters are no gauges. -/
theorem not_mem_brewCounterIds {k : Int16} (hk : k ∈ GAUGE_IDS) (f : FamilyId) (selector : UInt8) :
    k ∉ brewCounterIds (nivonaStatsCurrent f) selector := by
  have hall : ∀ n < 26, ∀ f : FamilyId,
      GAUGE_IDS.Disjoint (brewCounterIds (nivonaStatsCurrent f) (UInt8.ofNat n)) := by
    simp only [← List.inter_eq_nil_iff_disjoint]
    decide
  by_cases hsel : selector < 25
  · have hf := hall selector.toNat ((UInt8.lt_iff_toNat_lt.mp hsel).trans (by decide)) f hk
    rwa [UInt8.ofNat_toNat] at hf
  · -- no selector from 25 on has a counter of its own
    have hsame : brewCounterIds (nivonaStatsCurrent f) selector =
        brewCounterIds (nivonaStatsCurrent f) 25 := by
      simp [brewCounterIds, nivonaStatsHasRecipeCounter, UInt8.not_lt.mp hsel]
    rw [hsame]
    exact fun hmem => hall 25 (by decide) f hk hmem

theorem not_mem_cycleCounterIds {k : Int16} (hk : k ∈ GAUGE_IDS) (f : FamilyId) {plan : CyclePlan}
    (hplan : plan ∈ PLANS) : k ∉ cycleCounterIds (nivonaStatsCurrent f) plan := by
  have hall : ∀ f : FamilyId, ∀ plan ∈ PLANS,
      GAUGE_IDS.Disjoint (cycleCounterIds (nivonaStatsCurrent f) plan) := by
    simp only [← List.inter_eq_nil_iff_disjoint]
    decide
  exact fun hmem => hall f plan hplan hk hmem

end Nivona
