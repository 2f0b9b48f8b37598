import NivonaEmulator.Gauges
import NivonaEmulator.Lib.Cadence

/-!
# Cadence of the wear

The tick that paces the wear comes from the family's total register, or from a
counter of the session on families that have none.  As long as the register a
completed brew takes its tick from is in step with the session's counter, every
gauge is lowered once in each of its periods, on whatever families the brews
complete.
-/

namespace Nivona

/-! ## Ticks as integers -/

theorem int32_and_one_eq_zero_iff (t : Int32) : t &&& 1 = 0 ↔ (2 : ℤ) ∣ t.toInt := by
  have hand : t &&& 1 = 0 ↔ t.toBitVec.toNat % 2 = 0 := by
    rw [← Int32.toBitVec_inj, Int32.toBitVec_and, BitVec.toNat_eq, BitVec.toNat_and]
    change t.toBitVec.toNat &&& 1 = 0 ↔ _
    rw [Nat.and_one_is_mod]
  have hint : t.toInt = (t.toBitVec.toNat : ℤ).bmod (2 ^ 32) := BitVec.toInt_eq_toNat_bmod _
  rw [hand, hint, Int.bmod_def]
  split <;> omega

theorem int32_mod_five_eq_zero_iff (t : Int32) : t % 5 = 0 ↔ (5 : ℤ) ∣ t.toInt := by
  have hfive : (5 : Int32).toInt = 5 := rfl
  have hzero : (0 : Int32).toInt = 0 := rfl
  rw [← Int32.toInt_inj, Int32.toInt_mod, hfive, hzero]
  exact (Int.dvd_iff_tmod_eq_zero ..).symm

/-- Short of the largest value, counting is exact. -/
theorem int32_toInt_add_one {t : Int32} (h : t ≠ Int32.maxValue) :
    (t + 1).toInt = t.toInt + 1 := by
  have hne : t.toInt ≠ 2 ^ 31 - 1 := fun he => h (Int32.toInt_inj.mp he)
  have hlow := t.le_toInt
  have hhigh := t.toInt_lt
  rw [Int32.toInt_add]
  apply Int.bmod_eq_of_le
  · change _ ≤ t.toInt + 1
    omega
  · change t.toInt + 1 < _
    omega

/-! ## Lowered gauges -/

/-- Completed brews in which a gauge goes down once. -/
def Gauge.pace : Gauge → ℤ
  | .descale => 5
  | .brewUnit => 2
  | .filter => 1

theorem Gauge.pace_dvd_ten (g : Gauge) : g.pace ∣ 10 := by
  revert g
  decide

/-- Argument of the brew that a step completes. -/
def completedBrew? (c : Core) (a : Action) : Option BrewArg :=
  match registerEvent c a with
  | .brewDone arg => some arg
  | _ => none

/-- A step goes through the counters and wear of a brew. -/
def completesBrew (c : Core) (a : Action) : Bool := (completedBrew? c a).isSome

/-- The gauge goes down by one. -/
def lowers (g : Gauge) (c c' : Core) : Bool :=
  nivonaStoreGetNum c'.device.toStorage g.id == nivonaStoreGetNum c.device.toStorage g.id - 1

/-- For each completed brew of a run, whether it lowers the gauge. -/
def lowerings (g : Gauge) (s : Concurrent) : List Action → List Bool
  | [] => []
  | a :: rest =>
      let s' := concurrentStep s a
      if completesBrew s.core a then lowers g s.core s'.core :: lowerings g s' rest
      else lowerings g s' rest

/-- A step of a session, with the gauge above zero when a brew completes. -/
def AboveZero (g : Gauge) (s : Concurrent) (a : Action) : Prop :=
  a.isRestart = false ∧
    (completesBrew s.core a = true → 0 < nivonaStoreGetNum s.core.device.toStorage g.id)

instance (g : Gauge) (s : Concurrent) (a : Action) : Decidable (AboveZero g s a) :=
  inferInstanceAs (Decidable (_ ∧ (_ → _)))

/-! ## Where the tick comes from -/

/-- The count that the next completed brew takes up. -/
def wearSource (c : Core) : Int32 :=
  if c.stats.totalId ≠ 0 then nivonaStoreGetNum c.device.toStorage c.stats.totalId
  else c.localWearTick

/-- The registers once the recipe is counted. -/
def countRecipe (stats : Stats) (selector : UInt8) (s : Storage) : Storage :=
  if nivonaStatsHasRecipeCounter stats selector then
    batchBump s (200 + selector.toUInt16.toInt16)
  else s

/-- The total register, where the family has one, can be written and is in step
with the session's own count. -/
structure TickGoesOn (c : Core) (selector : UInt8) : Prop where
  source : wearSource c ≠ Int32.maxValue
  room : c.stats.totalId ≠ 0 →
    ¬(countRecipe c.stats selector (nivonaStoreBatchBegin c.device.toStorage)).num.FullFor
      c.stats.totalId
  inStep : c.stats.totalId ≠ 0 → (10 : ℤ) ∣ (wearSource c).toInt - c.localWearTick.toInt

/-- Completed brews go on with the session's tick. -/
def InStep (s : Concurrent) (a : Action) : Prop :=
  ∀ arg ∈ completedBrew? s.core a, TickGoesOn s.core arg.selector

instance (c : Core) (selector : UInt8) : Decidable (TickGoesOn c selector) :=
  decidable_of_iff
    (wearSource c ≠ Int32.maxValue ∧
      (c.stats.totalId ≠ 0 →
        ¬(countRecipe c.stats selector (nivonaStoreBatchBegin c.device.toStorage)).num.FullFor
          c.stats.totalId) ∧
      (c.stats.totalId ≠ 0 → (10 : ℤ) ∣ (wearSource c).toInt - c.localWearTick.toInt))
    ⟨fun h => ⟨h.1, h.2.1, h.2.2⟩, fun h => ⟨h.source, h.room, h.inStep⟩⟩

instance (s : Concurrent) (a : Action) : Decidable (InStep s a) :=
  inferInstanceAs (Decidable (∀ arg ∈ completedBrew? s.core a, _))

/-! ## One completed brew -/

section

variable {s : Storage} {g : Gauge}

theorem getNum_wear_self (h : 0 < nivonaStoreGetNum s g.id) :
    nivonaStoreGetNum (g.wear s) g.id = nivonaStoreGetNum s g.id - 1 := by
  rcases hv : s.num.get g.id with _ | v
  · rw [nivonaStoreGetNum, hv] at h
    exact absurd h (by decide)
  · have hread : nivonaStoreGetNum s g.id = v := by rw [nivonaStoreGetNum, hv, Option.getD_some]
    rw [hread] at h ⊢
    have hlower := get_lowerGauge_self hv
    rw [if_pos h] at hlower
    rw [Gauge.wear, batchWearGauge_eq, nivonaStoreGetNum]
    split
    · rw [num_batchSetNum, SlotTable.get_put_of_ne _ (g.id_ne_warnId g), hlower, Option.getD_some]
    · rw [hlower, Option.getD_some]

theorem getNum_wear_other {g' : Gauge} (hne : g ≠ g') :
    nivonaStoreGetNum (g'.wear s) g.id = nivonaStoreGetNum s g.id := by
  rw [nivonaStoreGetNum, nivonaStoreGetNum, Gauge.wear,
    get_batchWearGauge_of_ne (Gauge.id_injective.ne hne) (g.id_ne_warnId g')]

/-- Wear of a gauge when its pace divides the tick. -/
def Gauge.wearAt (g : Gauge) (ticks : Int32) (s : Storage) : Storage :=
  if g.pace ∣ ticks.toInt then g.wear s else s

theorem wearGauges_eq_wearAt (ticks : Int32) (s : Storage) :
    wearGauges ticks s =
      Gauge.descale.wearAt ticks (Gauge.brewUnit.wearAt ticks (Gauge.filter.wearAt ticks s)) := by
  rw [wearGauges_eq]
  simp only [int32_and_one_eq_zero_iff, int32_mod_five_eq_zero_iff, Gauge.wearAt, Gauge.pace,
    one_dvd, if_true]

theorem getNum_wearAt_self (h : 0 < nivonaStoreGetNum s g.id) (ticks : Int32) :
    nivonaStoreGetNum (g.wearAt ticks s) g.id =
      if g.pace ∣ ticks.toInt then nivonaStoreGetNum s g.id - 1 else nivonaStoreGetNum s g.id := by
  rw [Gauge.wearAt]
  split
  · exact getNum_wear_self h
  · rfl

theorem getNum_wearAt_other {g' : Gauge} (hne : g ≠ g') (ticks : Int32) (s : Storage) :
    nivonaStoreGetNum (g'.wearAt ticks s) g.id = nivonaStoreGetNum s g.id := by
  rw [Gauge.wearAt]
  split
  · exact getNum_wear_other hne
  · rfl

/-- Wear lowers the gauges whose pace divides the tick. -/
theorem getNum_wearGauges (h : 0 < nivonaStoreGetNum s g.id) (ticks : Int32) :
    nivonaStoreGetNum (wearGauges ticks s) g.id =
      if g.pace ∣ ticks.toInt then nivonaStoreGetNum s g.id - 1 else nivonaStoreGetNum s g.id := by
  have hother {g' : Gauge} (hne : g ≠ g') (s : Storage) := getNum_wearAt_other hne ticks s
  rw [wearGauges_eq_wearAt]
  cases g with
  | descale =>
      have hbefore : nivonaStoreGetNum (Gauge.brewUnit.wearAt ticks (Gauge.filter.wearAt ticks s))
          Gauge.descale.id = nivonaStoreGetNum s Gauge.descale.id := by
        rw [hother (by decide), hother (by decide)]
      rw [getNum_wearAt_self (by rwa [hbefore]), hbefore]
  | brewUnit =>
      have hbefore : nivonaStoreGetNum (Gauge.filter.wearAt ticks s) Gauge.brewUnit.id =
          nivonaStoreGetNum s Gauge.brewUnit.id := hother (by decide) s
      rw [hother (by decide), getNum_wearAt_self (by rwa [hbefore]), hbefore]
  | filter => rw [hother (by decide), hother (by decide), getNum_wearAt_self h]

end

theorem getNum_countBrew (f : FamilyId) (selector : UInt8) (s : Storage) (g : Gauge) :
    nivonaStoreGetNum (countBrew (nivonaStatsCurrent f) selector s) g.id =
      nivonaStoreGetNum s g.id := by
  rw [nivonaStoreGetNum, nivonaStoreGetNum, countBrew,
    get_countAll_of_not_mem (not_mem_brewCounterIds g.ids_mem.1 f selector)]

/-- A completed brew lowers the gauges whose pace divides its tick. -/
theorem lowers_applyWearAfterBrew {c : Core} {g : Gauge}
    (h : 0 < nivonaStoreGetNum c.device.toStorage g.id) (arg : BrewArg) :
    lowers g c (applyWearAfterBrew arg c) = true ↔
      g.pace ∣ (applyWearAfterBrew arg c).localWearTick.toInt := by
  obtain ⟨hnum, htick⟩ := applyWearAfterBrew_eq arg c
  have hcounted := getNum_countBrew c.device.family arg.selector
    (nivonaStoreBatchBegin c.device.toStorage) g
  have hbefore : nivonaStoreGetNum (nivonaStoreBatchBegin c.device.toStorage) g.id =
      nivonaStoreGetNum c.device.toStorage g.id := rfl
  rw [hbefore] at hcounted
  have hafter := getNum_wearGauges (by rwa [hcounted]) (applyWearAfterBrew arg c).localWearTick
    (s := countBrew (nivonaStatsCurrent c.device.family) arg.selector
      (nivonaStoreBatchBegin c.device.toStorage))
  rw [hcounted] at hafter
  have hread : nivonaStoreGetNum (applyWearAfterBrew arg c).device.toStorage g.id =
      if g.pace ∣ (applyWearAfterBrew arg c).localWearTick.toInt then
        nivonaStoreGetNum c.device.toStorage g.id - 1
      else nivonaStoreGetNum c.device.toStorage g.id := by
    rw [nivonaStoreGetNum, hnum, ← htick]
    exact hafter
  rw [lowers, hread, beq_iff_eq]
  split
  · rename_i hdvd
    exact ⟨fun _ => hdvd, fun _ => rfl⟩
  · rename_i hdvd
    have hne : nivonaStoreGetNum c.device.toStorage g.id ≠
        nivonaStoreGetNum c.device.toStorage g.id - 1 := by grind
    exact ⟨fun heq => absurd heq hne, fun hpace => absurd hpace hdvd⟩

/-- The total register after a completed brew that could write it. -/
theorem getNum_total_countBrew {f : FamilyId} {selector : UInt8} {s : Storage}
    (htotal : (nivonaStatsCurrent f).totalId ≠ 0)
    (hnodup : (brewCounterIds (nivonaStatsCurrent f) selector).Nodup)
    (hroom : ¬(countRecipe (nivonaStatsCurrent f) selector s).num.FullFor
      (nivonaStatsCurrent f).totalId) :
    nivonaStoreGetNum (countBrew (nivonaStatsCurrent f) selector s)
        (nivonaStatsCurrent f).totalId =
      nivonaStoreGetNum s (nivonaStatsCurrent f).totalId + 1 := by
  let stats := nivonaStatsCurrent f
  let counted := countRecipe stats selector s
  let viaIds := if stats.viaAppId ≠ 0 then [stats.viaAppId] else []
  have hsplit : brewCounterIds stats selector =
      (if nivonaStatsHasRecipeCounter stats selector then
        [200 + selector.toUInt16.toInt16] else []) ++ stats.totalId :: viaIds := by
    simp only [brewCounterIds, viaIds, if_pos htotal, List.append_assoc, List.singleton_append,
      stats]
  have hcount : countBrew stats selector s =
      viaIds.foldl batchBump (batchBump counted stats.totalId) := by
    simp only [countBrew, hsplit, List.foldl_append, List.foldl_cons, counted, countRecipe]
    split <;> rfl
  rw [hsplit] at hnodup
  have hvia : stats.totalId ∉ viaIds := (List.nodup_cons.mp hnodup.of_append_right).1
  have hrecipe : counted.num.get stats.totalId = s.num.get stats.totalId := by
    simp only [counted, countRecipe]
    split
    · rename_i hhas
      rw [if_pos hhas, List.singleton_append, List.nodup_cons, List.mem_cons, not_or] at hnodup
      exact get_batchBump_of_ne (Ne.symm hnodup.1.1)
    · rfl
  change nivonaStoreGetNum (countBrew stats selector s) stats.totalId =
    nivonaStoreGetNum s stats.totalId + 1
  rw [nivonaStoreGetNum, hcount, get_countAll_of_not_mem hvia, num_batchBump,
    SlotTable.get_put_self hroom, Option.getD_some, nivonaStoreGetNum, hrecipe, nivonaStoreGetNum]

/-- A completed brew whose tick goes on takes the session's count one further,
up to multiples of ten. -/
theorem tick_applyWearAfterBrew {c : Core} {arg : BrewArg} (hsel : arg.selector ≤ 10)
    (h : TickGoesOn c arg.selector) :
    (10 : ℤ) ∣ (applyWearAfterBrew arg c).localWearTick.toInt - (c.localWearTick.toInt + 1) := by
  have hnodup := nodup_brewCounterIds c.device.family hsel
  rw [(applyWearAfterBrew_eq arg c).2, wearTicks]
  split
  · rename_i htotal
    have hstep := h.inStep htotal
    have hsource := h.source
    rw [wearSource, if_pos htotal] at hstep hsource
    have hread : nivonaStoreGetNum (countBrew c.stats arg.selector
        (nivonaStoreBatchBegin c.device.toStorage)) c.stats.totalId =
        nivonaStoreGetNum c.device.toStorage c.stats.totalId + 1 :=
      getNum_total_countBrew htotal hnodup (h.room htotal)
    rw [hread, int32_toInt_add_one hsource]
    omega
  · rename_i htotal
    have hsource := h.source
    rw [wearSource, if_neg htotal] at hsource
    rw [int32_toInt_add_one hsource, sub_self]
    exact dvd_zero 10

/-! ## Runs -/

/-- A completed brew is one of a recipe. -/
theorem selector_le_of_brewDone {c : Core} (h : TaskData c) {a : Action} {arg : BrewArg}
    (harg : registerEvent c a = .brewDone arg) : arg.selector ≤ 10 := by
  rcases registerEvent_cases c a with he | ⟨i, run, -, hpc, he⟩ | ⟨i, plan, -, -, he⟩ |
    ⟨id, v, -, he⟩ | ⟨id, -, he⟩ | ⟨it, -, he⟩
  · simp [harg] at he
  · rw [harg] at he
    obtain rfl := RegisterEvent.brewDone.inj he
    exact h.brews _ (List.mem_of_getElem? hpc) run.arg rfl
  · simp [harg] at he
  · simp [harg] at he
  · simp [harg] at he
  · simp [harg] at he

theorem mem_completedBrew?_iff {c : Core} {a : Action} {arg : BrewArg} :
    arg ∈ completedBrew? c a ↔ registerEvent c a = .brewDone arg := by
  rw [completedBrew?]
  cases registerEvent c a <;> simp

theorem completesBrew_eq_true_iff {c : Core} {a : Action} :
    completesBrew c a = true ↔ ∃ arg, registerEvent c a = .brewDone arg := by
  simp only [completesBrew, Option.isSome_iff_exists, ← mem_completedBrew?_iff, Option.mem_def]

/-- Other steps leave the session's count alone. -/
theorem tick_of_not_completesBrew {s : Concurrent} {a : Action}
    (hrestart : a.isRestart = false) (h : completesBrew s.core a = false) :
    (concurrentStep s a).core.localWearTick = s.core.localWearTick := by
  rw [(sameRegisters_step s a).2]
  rcases registerEvent_cases s.core a with he | ⟨i, run, -, hpc, he⟩ | ⟨i, plan, -, hpc, he⟩ |
    ⟨id, v, -, he⟩ | ⟨id, -, he⟩ | ⟨it, rfl, -⟩
  · rw [he]
    rfl
  · exact absurd (completesBrew_eq_true_iff.mpr ⟨run.arg, he⟩) (by simp [h])
  · rw [he, RegisterEvent.apply, cycleComplete_eq]
  · rw [he]
    rfl
  · rw [he]
    rfl
  · exact absurd hrestart (by simp [Action.isRestart])

/-- A completed brew lowers the gauges whose pace divides the tick it leaves. -/
theorem lowers_step {s : Concurrent} {a : Action} (h : completesBrew s.core a = true)
    {g : Gauge} (hg : 0 < nivonaStoreGetNum s.core.device.toStorage g.id) :
    lowers g s.core (concurrentStep s a).core = true ↔
      g.pace ∣ (concurrentStep s a).core.localWearTick.toInt := by
  obtain ⟨arg, harg⟩ := completesBrew_eq_true_iff.mp h
  obtain ⟨hnum, htick⟩ := sameRegisters_step s a
  rw [harg] at hnum htick
  have hlowers := lowers_applyWearAfterBrew hg arg
  rw [lowers, nivonaStoreGetNum] at hlowers ⊢
  rw [hnum, htick]
  exact hlowers

/-- The brews of a run lower each gauge in its cadence. -/
theorem cadence_lowerings {g : Gauge} {s : Concurrent}
    (hdata : TaskData s.core ∧ CallData s.calls) {actions : List Action}
    (habove : Runs.Guarded concurrentStep (AboveZero g) s actions)
    (hstep : Runs.Guarded concurrentStep InStep s actions) :
    Cadence g.pace (s.core.localWearTick.toInt + 1) (lowerings g s actions) := by
  induction actions generalizing s with
  | nil => trivial
  | cons a rest ih =>
      have hrest := ih (taskData_step s a hdata) habove.2 hstep.2
      cases hbrew : completesBrew s.core a with
      | false =>
          rw [tick_of_not_completesBrew habove.1.1 hbrew] at hrest
          simpa [lowerings, hbrew] using hrest
      | true =>
          obtain ⟨arg, harg⟩ := completesBrew_eq_true_iff.mp hbrew
          let next := concurrentStep s a
          let tick := next.core.localWearTick.toInt
          have hflag : lowers g s.core next.core = true ↔ g.pace ∣ tick :=
            lowers_step hbrew (habove.1.2 hbrew)
          have hten : (10 : ℤ) ∣ tick - (s.core.localWearTick.toInt + 1) := by
            have hgoes := tick_applyWearAfterBrew (selector_le_of_brewDone hdata.1 harg)
              (hstep.1 arg (mem_completedBrew?_iff.mpr harg))
            have htick : next.core.localWearTick =
                (applyWearAfterBrew arg s.core).localWearTick := by
              have hsame := (sameRegisters_step s a).2
              rwa [harg] at hsame
            rwa [← htick] at hgoes
          have hall : Cadence g.pace tick (lowers g s.core next.core :: lowerings g next rest) :=
            ⟨hflag, hrest⟩
          have hback : g.pace ∣ s.core.localWearTick.toInt + 1 - tick := by
            rw [← dvd_neg, neg_sub]
            exact g.pace_dvd_ten.trans hten
          rw [lowerings, if_pos hbrew]
          exact hall.congr hback

/-- From any completed brew of a session on, as long as the brews after it go on
with the session's tick and find the gauges above zero, any two consecutive
completed brews lower gauge 610 exactly once, and any five gauge 600. -/
theorem wear_cadence (it : NvsIterator) (nvs : Nvs) (taskResults : ℕ → Bool)
    (before : List Action) (first : Action) (actions : List Action) :
    let s := Runs.run concurrentStep (Concurrent.boot it nvs taskResults) before
    completesBrew s.core first = true →
    Runs.Guarded concurrentStep (AboveZero .brewUnit) s (first :: actions) →
    Runs.Guarded concurrentStep (AboveZero .descale) s (first :: actions) →
    Runs.Guarded concurrentStep InStep (concurrentStep s first) actions →
    (∀ window, window <:+: lowerings .brewUnit s (first :: actions) → window.length = 2 →
      window.count true = 1) ∧
    ∀ window, window <:+: lowerings .descale s (first :: actions) → window.length = 5 →
      window.count true = 1 := by
  intro s hfirst hbrewUnit hdescale hstep
  have hdata := taskData_run it nvs taskResults before
  have hcadence {g : Gauge}
      (habove : Runs.Guarded concurrentStep (AboveZero g) s (first :: actions)) :
      Cadence g.pace (concurrentStep s first).core.localWearTick.toInt
        (lowerings g s (first :: actions)) := by
    rw [lowerings, if_pos hfirst]
    exact ⟨lowers_step hfirst (habove.1.2 hfirst),
      cadence_lowerings (taskData_step s first hdata) habove.2 hstep⟩
  constructor
  · intro window hw hlen
    exact (hcadence hbrewUnit).count_window (by decide) hw (by rw [hlen]; rfl)
  · intro window hw hlen
    exact (hcadence hdescale).count_window (by decide) hw (by rw [hlen]; rfl)

/-- A brew from its start to the end of its task, when nothing is in its way. -/
def hotWater (selector : Int16) : List Action :=
  .op (.brewStart selector false) :: List.replicate 5 (.resume 0) ++
    List.replicate 39 (.op (.brewTask 0))

/-- Of two brews on the 8000 family one lowers the gauge of the brew unit. -/
theorem wear_cadence_hotWater :
    let boot := Concurrent.boot NvsIterator.storageOrder Nvs.empty fun _ => true
    (lowerings .brewUnit (Runs.run concurrentStep boot waterBrew)
      (.op (.brewTask 0) ::
        (List.replicate 2 (.op (.brewTask 0)) ++ hotWater 7))).count true = 1 := by
  intro boot
  have h := (wear_cadence NvsIterator.storageOrder Nvs.empty (fun _ => true) waterBrew
    (.op (.brewTask 0)) (List.replicate 2 (.op (.brewTask 0)) ++ hotWater 7) (by decide +kernel)
    (by decide +kernel) (by decide +kernel) (by decide +kernel)).1
  exact h _ List.infix_rfl (by decide +kernel)

/-- After a brew on the 8000 family and one on the 1030 family the gauge of the
brew unit is where it was. -/
theorem cadence_lost_on_switch :
    let boot := Concurrent.boot NvsIterator.storageOrder Nvs.empty fun _ => true
    let actions := hotWater 7 ++ .op (.familyCli "1030") :: hotWater 6
    Runs.Guarded concurrentStep (AboveZero .brewUnit) boot actions ∧
      Runs.Guarded concurrentStep (AboveZero .descale) boot actions ∧
      ¬∀ window, window <:+: lowerings .brewUnit boot actions → window.length = 2 →
        window.count true = 1 := by
  intro boot actions
  have hlog : lowerings .brewUnit boot actions = [false, false] := by decide +kernel
  refine ⟨by decide +kernel, by decide +kernel, fun h => ?_⟩
  rw [hlog] at h
  exact absurd (h [false, false] List.infix_rfl rfl) (by decide)

end Nivona
