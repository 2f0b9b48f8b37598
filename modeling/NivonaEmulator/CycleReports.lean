import NivonaEmulator.BrewRamp
import NivonaEmulator.Sections
import NivonaEmulator.TaskLives

/-!
# What maintenance cycles report

Start calls, cancels, brews, family switches and all other operations are interleaved
with the sections of `cycle_task`.  The ticks of a cycle store the percentages of its
plan in order, and its counter and gauges are updated only after all of them, so after
the whole time of the plan.  A tick stores its percentage in one section and pushes
the status in another: it shows what it stored unless a brew or the reset of a family
switch has stored a progress in between.
-/

namespace Nivona

open Ticks

/-- What one tick has done. -/
structure TickReport where
  stored : Int16
  /-- another task has stored a progress before the push -/
  overwritten : Bool
  /-- progress of the status that was pushed -/
  shown : Int16
  deriving DecidableEq, Repr

/-- What one run of `cycle_task` has done. -/
structure CycleReport where
  kind : CycleKind
  /-- ticks that have pushed the status -/
  ticks : List TickReport
  /-- the percentage of a tick that has not pushed the status yet, and whether it has been
  overwritten -/
  unpushed : Option (Int16 × Bool)
  /-- milliseconds of the delays of its ticks -/
  slept : ℕ
  /-- its counter and gauges have been updated -/
  completed : Bool
  deriving DecidableEq, Repr

def CycleReport.opened (kind : CycleKind) : CycleReport :=
  { kind := kind, ticks := [], unpushed := none, slept := 0, completed := false }

/-- The percentages that the ticks have stored. -/
def CycleReport.stored (r : CycleReport) : List Int16 := r.ticks.map (·.stored)

/-- The percentages that have been pushed, less those of ticks that were overwritten. -/
def CycleReport.undisturbed (r : CycleReport) : List Int16 :=
  (r.ticks.filter fun t => !t.overwritten).map (·.shown)

/-- Record the next section of a task; the first report is that of the last task. -/
def reportSection (c : Core) (reports : List CycleReport) (p : CyclePoint) :
    List CycleReport :=
  match p, reports with
  | .entry, reports => .opened c.cycle.kind :: reports
  | .tick plan elapsed, r :: past =>
      if elapsed < plan.totalMs ∧ c.cycle.cancel = false then
        { r with slept := r.slept + (min (plan.totalMs - elapsed) TICK_MS).toNat } :: past
      else r :: past
  | .progress plan elapsed, r :: past =>
      let c' := (cycleSection c (.progress plan elapsed)).core
      { r with unpushed := some (c'.status.progress, false) } :: past
  | .tickPush .., r :: past =>
      match r.unpushed with
      | none => r :: past
      | some (stored, overwritten) =>
          { r with
            ticks := r.ticks ++ [⟨stored, overwritten, c.status.progress⟩]
            unpushed := none } :: past
  | .complete _, r :: past => { r with completed := true } :: past
  | _, reports => reports

/-- These sections of a brew store a progress. -/
def BrewPoint.storesProgress : BrewPoint → Bool
  | .clearProgress _ | .progress .. | .readyProgress _ => true
  | _ => false

/-- The reset of the status stores a progress. -/
def SwitchPoint.storesProgress : SwitchPoint → Bool
  | .reset _ => true
  | _ => false

/-- A brew or a family switch stores a progress. -/
def SectionAction.storesProgress (s : Sectioned) : SectionAction → Bool
  | .op (.brewTask i) => s.brews[i]?.any BrewPoint.storesProgress
  | .resumeSwitch i => s.switches[i]?.any SwitchPoint.storesProgress
  | _ => false

/-- Another task stores a progress. -/
def CycleReport.overwrite (r : CycleReport) : CycleReport :=
  { r with unpushed := r.unpushed.map fun u => (u.1, true) }

def overwriteFirst : List CycleReport → List CycleReport
  | [] => []
  | r :: past => r.overwrite :: past

/-- The system, and the reports of its cycles so far. -/
structure CycleLog where
  system : Sectioned
  reports : List CycleReport

def cycleLogStep (l : CycleLog) (a : SectionAction) : CycleLog :=
  { system := sectionStep l.system a
    reports :=
      match a with
      | .op (.cycleTask i) =>
          match l.system.cycles[i]? with
          | some p => reportSection l.system.core l.reports p
          | none => l.reports
      | a => if a.storesProgress l.system then overwriteFirst l.reports else l.reports }

def CycleLog.boot (it : NvsIterator) (nvs : Nvs) (taskResults : ℕ → Bool) : CycleLog :=
  { system := .boot it nvs taskResults, reports := [] }

/-! ## The percentages of a plan -/

/-- What the ticks report from a time on. -/
def CyclePlan.progressFrom (plan : CyclePlan) (t : ℕ) : List Int16 :=
  (ticksFrom TICK_MS.toNat plan.totalMs.toNat t).map fun t =>
    Int16.ofNat (t * 100 / plan.totalMs.toNat)

theorem findPlan_totalMs {k : CycleKind} {plan : CyclePlan} (h : findPlan k = some plan) :
    0 < plan.totalMs.toNat ∧ plan.totalMs.toNat ≤ 42949672 := by
  cases k <;> obtain rfl := Option.some.inj h <;> decide

/-- The percentages grow from one tick to the next. -/
theorem pairwise_progressFrom (plan : CyclePlan) (t : ℕ) :
    (plan.progressFrom t).Pairwise fun p q => p.toInt ≤ q.toInt := by
  rw [CyclePlan.progressFrom, List.pairwise_map]
  refine (pairwise_ticksFrom ..).imp_of_mem ?_
  intro t₁ t₂ h₁ h₂ hlt
  rw [toInt_percent (lt_of_mem_ticksFrom h₁).2, toInt_percent (lt_of_mem_ticksFrom h₂).2]
  exact_mod_cast Nat.div_le_div_right (Nat.mul_le_mul_right 100 (Nat.le_of_lt hlt))

theorem mem_progressFrom {plan : CyclePlan} {t : ℕ} {p : Int16} (h : p ∈ plan.progressFrom t) :
    0 ≤ p.toInt ∧ p.toInt ≤ 100 := by
  obtain ⟨t', ht', rfl⟩ := List.mem_map.mp h
  have hle := (lt_of_mem_ticksFrom ht').2
  have hpercent := percent_le hle
  rw [toInt_percent hle]
  exact ⟨Int.natCast_nonneg _, by exact_mod_cast hpercent⟩

/-- The last tick reports that everything is done. -/
theorem getLast?_progressFrom {plan : CyclePlan} {t : ℕ} (h : t < plan.totalMs.toNat) :
    (plan.progressFrom t).getLast? = some 100 := by
  have hpos : 0 < plan.totalMs.toNat := Nat.lt_of_le_of_lt (Nat.zero_le t) h
  have hwhole : plan.totalMs.toNat * 100 / plan.totalMs.toNat = 100 :=
    Nat.mul_div_cancel_left 100 hpos
  rw [CyclePlan.progressFrom, List.getLast?_map, getLast?_ticksFrom (by decide) h,
    Option.map_some, hwhole]
  rfl

theorem progressFrom_done {plan : CyclePlan} {t : ℕ} (h : plan.totalMs.toNat ≤ t) :
    plan.progressFrom t = [] := by
  rw [CyclePlan.progressFrom, ticksFrom_done h]
  rfl

/-- One delay of the tick loop. -/
theorem toNat_delay {elapsed totalMs : UInt32} (h : elapsed < totalMs) :
    (min (totalMs - elapsed) TICK_MS).toNat =
        min (totalMs.toNat - elapsed.toNat) TICK_MS.toNat ∧
      (elapsed + min (totalMs - elapsed) TICK_MS).toNat =
        elapsed.toNat + (min (totalMs - elapsed) TICK_MS).toNat := by
  have hlt : elapsed.toNat < totalMs.toNat := UInt32.lt_iff_toNat_lt.mp h
  have htotal := totalMs.toNat_lt
  have hsub : (totalMs - elapsed).toNat = totalMs.toNat - elapsed.toNat :=
    UInt32.toNat_sub_of_le _ _ (UInt32.le_of_lt h)
  have hmin : (min (totalMs - elapsed) TICK_MS).toNat =
      min (totalMs.toNat - elapsed.toNat) TICK_MS.toNat := by
    change (if totalMs - elapsed ≤ TICK_MS then totalMs - elapsed else TICK_MS).toNat = _
    rw [← hsub, min_def, apply_ite UInt32.toNat]
    simp only [UInt32.le_iff_toNat_le]
  refine ⟨hmin, ?_⟩
  rw [UInt32.toNat_add, hmin, Nat.mod_eq_of_lt (by omega)]

/-- The next tick reports the percentage of the time that has passed with its delay. -/
theorem progressFrom_of_lt {plan : CyclePlan} {elapsed : UInt32}
    (hbound : plan.totalMs.toNat ≤ 42949672) (h : elapsed < plan.totalMs) :
    plan.progressFrom elapsed.toNat =
      progressPct (elapsed + min (plan.totalMs - elapsed) TICK_MS) plan.totalMs ::
        plan.progressFrom (elapsed + min (plan.totalMs - elapsed) TICK_MS).toNat := by
  obtain ⟨-, hwithin⟩ := toNat_add_min (c := TICK_MS) h (by decide)
  obtain ⟨hmin, hsum⟩ := toNat_delay h
  rw [progressPct_eq hbound hwithin, CyclePlan.progressFrom,
    ticksFrom_of_lt (by decide) (UInt32.lt_iff_toNat_lt.mp h), ← hmin, ← hsum, List.map_cons]
  rfl

/-! ## One report -/

/-- A tick that was not overwritten has shown what it stored. -/
def CycleReport.Shown (r : CycleReport) : Prop :=
  ∀ t ∈ r.ticks, t.overwritten = false → t.shown = t.stored

/-- A report of some of the ticks. -/
structure CycleReport.Partial (plan : CyclePlan) (r : CycleReport) : Prop where
  kind : findPlan r.kind = some plan
  stored : r.stored <+: plan.progressFrom 0
  slept : r.slept ≤ plan.totalMs.toNat
  shown : r.Shown

/-- A report of all ticks. -/
structure CycleReport.Whole (plan : CyclePlan) (r : CycleReport) : Prop where
  kind : findPlan r.kind = some plan
  stored : r.stored = plan.progressFrom 0
  slept : r.slept = plan.totalMs.toNat
  shown : r.Shown

/-- Only a cycle that has reported all ticks has been completed. -/
structure CycleReport.Sound (plan : CyclePlan) (r : CycleReport) : Prop extends
    r.Partial plan where
  completed : r.completed = true → r.Whole plan

/-- A report in the tick loop: `rest` is what is still to be stored. -/
structure CycleReport.InLoop (plan : CyclePlan) (elapsed : UInt32) (rest : List Int16)
    (r : CycleReport) : Prop where
  kind : findPlan r.kind = some plan
  ongoing : r.completed = false
  slept : r.slept = elapsed.toNat
  within : elapsed.toNat ≤ plan.totalMs.toNat
  stored : r.stored ++ rest = plan.progressFrom 0
  shown : r.Shown

section

variable {plan : CyclePlan} {elapsed : UInt32} {rest : List Int16} {r : CycleReport}

theorem CycleReport.Whole.toPartial (h : r.Whole plan) : r.Partial plan where
  kind := h.kind
  stored := h.stored ▸ List.prefix_rfl
  slept := Nat.le_of_eq h.slept
  shown := h.shown

theorem CycleReport.Whole.sound (h : r.Whole plan) : r.Sound plan :=
  ⟨h.toPartial, fun _ => h⟩

theorem CycleReport.Partial.sound (h : r.Partial plan) (hopen : r.completed = false) :
    r.Sound plan :=
  ⟨h, fun hdone => absurd (hopen.symm.trans hdone) Bool.false_ne_true⟩

theorem CycleReport.InLoop.toPartial (h : r.InLoop plan elapsed rest) : r.Partial plan where
  kind := h.kind
  stored := by
    rw [← h.stored]
    exact List.prefix_append _ _
  slept := h.slept ▸ h.within
  shown := h.shown

theorem CycleReport.InLoop.sound (h : r.InLoop plan elapsed rest) : r.Sound plan :=
  h.toPartial.sound h.ongoing

/-- Overwriting concerns the tick that has not pushed yet alone. -/
theorem CycleReport.Whole.overwrite (h : r.Whole plan) : r.overwrite.Whole plan :=
  ⟨h.kind, h.stored, h.slept, h.shown⟩

theorem CycleReport.Partial.overwrite (h : r.Partial plan) : r.overwrite.Partial plan :=
  ⟨h.kind, h.stored, h.slept, h.shown⟩

theorem CycleReport.Sound.overwrite (h : r.Sound plan) : r.overwrite.Sound plan :=
  ⟨h.toPartial.overwrite, fun hdone => (h.completed hdone).overwrite⟩

theorem CycleReport.InLoop.overwrite (h : r.InLoop plan elapsed rest) :
    r.overwrite.InLoop plan elapsed rest :=
  ⟨h.kind, h.ongoing, h.slept, h.within, h.stored, h.shown⟩

/-- A cycle that has not ticked yet. -/
theorem CycleReport.inLoop_opened (hplan : findPlan plan.kind = some plan) :
    (CycleReport.opened plan.kind).InLoop plan 0 (plan.progressFrom 0) where
  kind := hplan
  ongoing := rfl
  slept := rfl
  within := Nat.zero_le _
  stored := rfl
  shown := fun _ ht => absurd ht List.not_mem_nil

end

/-! ## Where a task stands -/

/-- What the report of a task says at its program points. -/
def CyclePoint.Reported (c : Core) (r : CycleReport) : CyclePoint → Prop
  | .entry => False
  | .prep plan | .prepPush plan | .prepClear plan | .family plan | .announce plan _
  | .announcePush plan => findPlan plan.kind = some plan ∧ r = .opened plan.kind
  | .tick plan elapsed => r.InLoop plan elapsed (plan.progressFrom elapsed.toNat)
  | .progress plan elapsed => r.InLoop plan elapsed
      (progressPct elapsed plan.totalMs :: plan.progressFrom elapsed.toNat)
  | .tickPush plan elapsed => ∃ stored overwritten,
      r.unpushed = some (stored, overwritten) ∧
        (overwritten = false → c.status.progress = stored) ∧
        r.InLoop plan elapsed (stored :: plan.progressFrom elapsed.toNat)
  | .check plan => r.completed = false ∧ r.Partial plan ∧
      (c.cycle.cancel = false → r.Whole plan)
  | .complete plan => r.Whole plan
  | .readyFamily | .ready _ | .readyProgress | .review | .reviewPush | .cleanup =>
      ∃ plan, r.Sound plan

theorem CyclePoint.Reported.sound {c : Core} {r : CycleReport} {p : CyclePoint}
    (h : p.Reported c r) : ∃ plan, r.Sound plan := by
  have hopened {plan : CyclePlan} (h : findPlan plan.kind = some plan ∧ r = .opened plan.kind) :
      ∃ plan, r.Sound plan := by
    obtain ⟨hplan, rfl⟩ := h
    exact ⟨plan, (CycleReport.inLoop_opened hplan).sound⟩
  cases p with
  | entry => exact absurd h id
  | prep plan | prepPush plan | prepClear plan | family plan | announce plan emitCode
  | announcePush plan => exact hopened h
  | tick plan elapsed | progress plan elapsed => exact ⟨plan, CycleReport.InLoop.sound h⟩
  | tickPush plan elapsed =>
      obtain ⟨stored, overwritten, -, -, hloop⟩ := h
      exact ⟨plan, hloop.sound⟩
  | check plan => exact ⟨plan, h.2.1.sound h.1⟩
  | complete plan => exact ⟨plan, CycleReport.Whole.sound h⟩
  | _ => exact h

/-- What other tasks do between two sections: a cancel may come, and a progress that they
store is recorded. -/
theorem CyclePoint.Reported.mono {c c' : Core} {r : CycleReport} {p : CyclePoint}
    (h : p.Reported c r) (hcancel : c.cycle.cancel = true → c'.cycle.cancel = true)
    {stores : Bool} (hprogress : stores = false → c'.status.progress = c.status.progress) :
    p.Reported c' (if stores then r.overwrite else r) := by
  have hclear (hc : c'.cycle.cancel = false) : c.cycle.cancel = false := by
    refine Bool.eq_false_of_not_eq_true fun hset => ?_
    exact absurd (hc.symm.trans (hcancel hset)) Bool.false_ne_true
  cases stores with
  | false =>
      rw [if_neg Bool.false_ne_true]
      cases p with
      | tickPush plan elapsed =>
          obtain ⟨stored, overwritten, hstored, hshown, hloop⟩ := h
          refine ⟨stored, overwritten, hstored, ?_, hloop⟩
          intro hkept
          rw [hprogress rfl]
          exact hshown hkept
      | check plan => exact ⟨h.1, h.2.1, fun hc => h.2.2 (hclear hc)⟩
      | _ => exact h
  | true =>
      rw [if_pos rfl]
      have hopened {plan : CyclePlan}
          (h : findPlan plan.kind = some plan ∧ r = .opened plan.kind) :
          findPlan plan.kind = some plan ∧ r.overwrite = .opened plan.kind := by
        obtain ⟨hplan, rfl⟩ := h
        exact ⟨hplan, rfl⟩
      have hsound (h : ∃ plan, r.Sound plan) : ∃ plan, r.overwrite.Sound plan := by
        obtain ⟨plan, hplan⟩ := h
        exact ⟨plan, hplan.overwrite⟩
      cases p with
      | entry => exact h
      | prep plan | prepPush plan | prepClear plan | family plan | announce plan emitCode
      | announcePush plan => exact hopened h
      | tick plan elapsed | progress plan elapsed => exact CycleReport.InLoop.overwrite h
      | tickPush plan elapsed =>
          obtain ⟨stored, overwritten, hstored, -, hloop⟩ := h
          refine ⟨stored, true, ?_, fun hkept => absurd hkept.symm Bool.false_ne_true,
            hloop.overwrite⟩
          simp only [CycleReport.overwrite, hstored, Option.map_some]
      | check plan => exact ⟨h.1, h.2.1.overwrite, fun hc => (h.2.2 (hclear hc)).overwrite⟩
      | complete plan => exact CycleReport.Whole.overwrite h
      | _ => exact hsound h

/-! ## Sections of a cycle -/

/-- The first section of a task opens its report. -/
theorem reported_entry {c : Core} {p' : CyclePoint} (reports : List CycleReport)
    (hnext : (cycleSection c .entry).next = some p') :
    ∃ r, reportSection c reports .entry = r :: reports ∧ p'.Reported c r := by
  obtain ⟨plan, hplan, hkind⟩ := findPlan_isSome c.cycle.kind
  refine ⟨.opened c.cycle.kind, rfl, ?_⟩
  simp only [cycleSection, hplan] at hnext
  rw [← hkind] at hplan ⊢
  split at hnext
  · obtain rfl := Option.some.inj hnext
    exact ⟨hplan, rfl⟩
  · obtain rfl := Option.some.inj hnext
    exact ⟨hplan, rfl⟩

/-- The test of the tick loop, and its delay. -/
theorem reported_tick {c : Core} {plan : CyclePlan} {elapsed : UInt32} {p' : CyclePoint}
    {r : CycleReport} (past : List CycleReport)
    (h : (CyclePoint.tick plan elapsed).Reported c r)
    (hnext : (cycleSection c (.tick plan elapsed)).next = some p') :
    ∃ r', reportSection c (r :: past) (.tick plan elapsed) = r' :: past ∧ p'.Reported c r' := by
  have hloop : r.InLoop plan elapsed (plan.progressFrom elapsed.toNat) := h
  by_cases hgo : elapsed < plan.totalMs ∧ c.cycle.cancel = false
  · have hp' : p' = .progress plan (elapsed + min (plan.totalMs - elapsed) TICK_MS) := by
      simp only [cycleSection, if_pos hgo] at hnext
      exact (Option.some.inj hnext).symm
    subst hp'
    obtain ⟨-, hwithin⟩ := toNat_add_min (c := TICK_MS) hgo.1 (by decide)
    obtain ⟨-, hsum⟩ := toNat_delay hgo.1
    have hfirst := progressFrom_of_lt (findPlan_totalMs hloop.kind).2 hgo.1
    refine ⟨{ r with slept := r.slept + (min (plan.totalMs - elapsed) TICK_MS).toNat }, ?_,
      hloop.kind, hloop.ongoing, ?_, hwithin, ?_, hloop.shown⟩
    · simp only [reportSection, if_pos hgo]
    · change r.slept + _ = _
      rw [hloop.slept, hsum]
    · rw [← hfirst]
      exact hloop.stored
  · have hp' : p' = .check plan := by
      simp only [cycleSection, if_neg hgo] at hnext
      exact (Option.some.inj hnext).symm
    subst hp'
    refine ⟨r, by simp only [reportSection, if_neg hgo], hloop.ongoing, hloop.toPartial, ?_⟩
    intro hclear
    have hend : plan.totalMs.toNat ≤ elapsed.toNat := by
      refine Nat.not_lt.mp ?_
      intro hlt
      exact hgo ⟨UInt32.lt_iff_toNat_lt.mpr hlt, hclear⟩
    have hstored := hloop.stored
    rw [progressFrom_done hend, List.append_nil] at hstored
    exact ⟨hloop.kind, hstored, hloop.slept.trans (Nat.le_antisymm hloop.within hend),
      hloop.shown⟩

/-- The push of a tick: its percentage joins the report. -/
theorem reported_tickPush {c : Core} {plan : CyclePlan} {elapsed : UInt32} {r : CycleReport}
    (past : List CycleReport) (h : (CyclePoint.tickPush plan elapsed).Reported c r) :
    ∃ r', reportSection c (r :: past) (.tickPush plan elapsed) = r' :: past ∧
      (CyclePoint.tick plan elapsed).Reported c r' := by
  obtain ⟨stored, overwritten, hstored, hshown, hloop⟩ := h
  refine ⟨{ r with
      ticks := r.ticks ++ [⟨stored, overwritten, c.status.progress⟩]
      unpushed := none }, by simp only [reportSection, hstored],
    hloop.kind, hloop.ongoing, hloop.slept, hloop.within, ?_, ?_⟩
  · rw [← hloop.stored, CycleReport.stored, CycleReport.stored, List.map_append,
      List.append_assoc]
    rfl
  · intro t ht hkept
    rcases List.mem_append.mp ht with hold | hnew
    · exact hloop.shown t hold hkept
    · obtain rfl := List.mem_singleton.mp hnew
      exact hshown hkept

/-- Any section of a task that has begun. -/
theorem reported_section {c : Core} {p p' : CyclePoint} {r : CycleReport}
    (past : List CycleReport) (h : p.Reported c r)
    (hnext : (cycleSection c p).next = some p') :
    ∃ r', reportSection c (r :: past) p = r' :: past ∧
      p'.Reported (cycleSection c p).core r' := by
  cases p with
  | entry => exact absurd h id
  | tick plan elapsed =>
      obtain ⟨r', hr', hp'⟩ := reported_tick past h hnext
      refine ⟨r', hr', ?_⟩
      have hcore : (cycleSection c (.tick plan elapsed)).core = c := by
        simp only [cycleSection]
        split <;> rfl
      rw [hcore]
      exact hp'
  | progress plan elapsed =>
      obtain rfl := Option.some.inj hnext
      have hloop : r.InLoop plan elapsed
          (progressPct elapsed plan.totalMs :: plan.progressFrom elapsed.toNat) := h
      refine ⟨_, rfl, _, _, rfl, fun _ => rfl, ?_⟩
      exact ⟨hloop.kind, hloop.ongoing, hloop.slept, hloop.within, hloop.stored, hloop.shown⟩
  | tickPush plan elapsed =>
      obtain rfl := Option.some.inj hnext
      exact reported_tickPush past h
  | announcePush plan =>
      obtain rfl := Option.some.inj hnext
      obtain ⟨hplan, rfl⟩ := h
      exact ⟨_, rfl, CycleReport.inLoop_opened hplan⟩
  | check plan =>
      obtain ⟨hopen, hpart, hwhole⟩ := h
      obtain rfl := Option.some.inj hnext
      refine ⟨r, rfl, ?_⟩
      split
      · exact ⟨plan, hpart.sound hopen⟩
      · rename_i hclear
        exact hwhole (Bool.eq_false_of_not_eq_true hclear)
  | complete plan =>
      obtain rfl := Option.some.inj hnext
      have hwhole : r.Whole plan := h
      exact ⟨{ r with completed := true }, rfl, plan, CycleReport.Whole.sound
        ⟨hwhole.kind, hwhole.stored, hwhole.slept, hwhole.shown⟩⟩
  | cleanup => exact absurd hnext (by simp [cycleSection])
  | _ =>
      obtain rfl := Option.some.inj hnext
      exact ⟨r, rfl, h⟩

/-! ## Other tasks -/

/-- Only some sections of a brew store a progress. -/
theorem progress_brewSection (c : Core) {p : BrewPoint} (hp : p.storesProgress = false) :
    (brewSection c p).core.status.progress = c.status.progress := by
  cases p with
  | clearProgress run | progress run i stageElapsed elapsedMs | readyProgress run =>
      exact absurd hp.symm Bool.false_ne_true
  | stage run i elapsedMs =>
      simp only [brewSection]
      split <;> rfl
  | tick run i stageElapsed elapsedMs =>
      simp only [brewSection]
      split
      · rfl
      · split <;> rfl
  | _ => rfl

theorem progress_switchSection (c : Core) {p : SwitchPoint} (hp : p.storesProgress = false) :
    (switchSection c p).1.status.progress = c.status.progress := by
  cases p with
  | reset f => exact absurd hp.symm Bool.false_ne_true
  | _ => rfl

/-- What is not a section of a cycle ends the cycle, creates one where there is none, or
leaves it where it is; then it takes no cancel back, and may store a progress. -/
theorem cycles_of_others {s : Sectioned} (hsingle : s.Single) {a : SectionAction}
    (htask : ∀ i, a ≠ .op (.cycleTask i)) :
    ((sectionStep s a).cycles = [] ∨
        s.cycles = [] ∧ (sectionStep s a).cycles = [.entry]) ∨
      (sectionStep s a).cycles = s.cycles ∧
        (s.cycles ≠ [] → s.core.cycle.cancel = true →
          (sectionStep s a).core.cycle.cancel = true) ∧
        (a.storesProgress s = false →
          (sectionStep s a).core.status.progress = s.core.status.progress) := by
  have hactive (hne : s.cycles ≠ []) : s.core.cycle.active = true := by
    by_contra hidle
    exact hne (hsingle.cycle.2 (Bool.eq_false_of_not_eq_true hidle))
  have hchange := change_sectionStep s a
  generalize sectionStep s a = s' at hchange ⊢
  cases hchange with
  | restart it => exact .inl (.inl rfl)
  | kept a calls hkept hbrew hcycle =>
      exact .inr ⟨rfl, fun hne => hkept.cancel (hactive hne), fun _ => hkept.progress⟩
  | select ho f reset => exact .inr ⟨rfl, fun _ => id, fun _ => rfl⟩
  | @brew i p hp =>
      obtain ⟨-, hcycle, -⟩ := brewSection_frame s.core p
      refine .inr ⟨rfl, fun _ hset => ?_, fun hstores => ?_⟩
      · rw [hcycle]
        exact hset
      · refine progress_brewSection s.core ?_
        simpa [SectionAction.storesProgress, hp] using hstores
  | @cycle i p hp => exact absurd rfl (htask i)
  | brewNew i calls hkept hidle hset hcycle =>
      exact .inr ⟨rfl, fun hne => hkept.cancel (hactive hne), fun _ => hkept.progress⟩
  | cycleNew i calls hkept hidle hset hbrew =>
      have hnone := hsingle.cycle.2 hidle
      exact .inl (.inr ⟨hnone, by rw [hnone]; rfl⟩)
  | @switch i p hp =>
      refine .inr ⟨rfl, fun _ hset => ?_, fun hstores => ?_⟩
      · cases p with
        | _ => exact hset
      · refine progress_switchSection s.core ?_
        simpa [SectionAction.storesProgress, hp] using hstores

/-! ## All reports -/

def AllSound (reports : List CycleReport) : Prop :=
  ∀ r ∈ reports, ∃ plan, r.Sound plan

theorem AllSound.overwriteFirst {reports : List CycleReport} (h : AllSound reports) :
    AllSound (overwriteFirst reports) := by
  cases reports with
  | nil => exact h
  | cons r past =>
      intro r' hr'
      rcases List.mem_cons.mp hr' with rfl | hr'
      · obtain ⟨plan, hplan⟩ := h r List.mem_cons_self
        exact ⟨plan, hplan.overwrite⟩
      · exact h r' (List.mem_cons_of_mem r hr')

/-- A task that has begun is the one of the first report. -/
inductive CycleLog.Reports (l : CycleLog) : Prop
  | waiting (htasks : l.system.cycles = [] ∨ l.system.cycles = [.entry])
      (hall : AllSound l.reports)
  | begun {p : CyclePoint} {r : CycleReport} {past : List CycleReport}
      (htasks : l.system.cycles = [p]) (hreports : l.reports = r :: past)
      (hp : p.Reported l.system.core r) (hpast : AllSound past)

theorem CycleLog.Reports.all {l : CycleLog} (h : l.Reports) : AllSound l.reports := by
  cases h with
  | waiting htasks hall => exact hall
  | begun htasks hreports hp hpast =>
      rw [hreports]
      intro r hr
      rcases List.mem_cons.mp hr with rfl | hr
      · exact hp.sound
      · exact hpast r hr

theorem cycleLogStep_none {l : CycleLog} {i : ℕ} (hi : l.system.cycles[i]? = none) :
    cycleLogStep l (.op (.cycleTask i)) = l := by
  simp [cycleLogStep, sectionStep, hi]

theorem cycleLogStep_section {l : CycleLog} {p : CyclePoint} (htasks : l.system.cycles = [p]) :
    cycleLogStep l (.op (.cycleTask 0)) =
      { system := { l.system with
          core := (cycleSection l.system.core p).core
          cycles := advance [p] 0 (cycleSection l.system.core p).next }
        reports := reportSection l.system.core l.reports p } := by
  simp only [cycleLogStep, sectionStep, htasks]
  rfl

/-- A section of the task of the last report. -/
theorem reports_task {l : CycleLog} (h : l.Reports) (i : ℕ) :
    (cycleLogStep l (.op (.cycleTask i))).Reports := by
  by_cases hnone : l.system.cycles[i]? = none
  · rw [cycleLogStep_none hnone]
    exact h
  have hindex {p : CyclePoint} (htasks : l.system.cycles = [p]) : i = 0 := by
    by_contra hi
    exact hnone (by simp [htasks, hi])
  cases h with
  | waiting htasks hall =>
      rcases htasks with htasks | htasks
      · exact absurd (by simp [htasks]) hnone
      · obtain rfl := hindex htasks
        obtain ⟨p', hnext⟩ := cycleSection_next l.system.core (p := .entry) (by simp)
        obtain ⟨r, hr, hp'⟩ := reported_entry l.reports hnext
        have hcore : (cycleSection l.system.core .entry).core = l.system.core := by
          obtain ⟨plan, hplan, -⟩ := findPlan_isSome l.system.core.cycle.kind
          simp only [cycleSection, hplan]
        rw [← hcore] at hp'
        have hnow : advance [.entry] 0 (cycleSection l.system.core .entry).next = [p'] := by
          rw [hnext]
          rfl
        rw [cycleLogStep_section htasks]
        exact .begun hnow hr hp' hall
  | @begun p r past htasks hlog hp hpast =>
      obtain rfl := hindex htasks
      rw [cycleLogStep_section htasks, hlog]
      by_cases hclean : p = .cleanup
      · -- only the cleanup ends a task
        subst hclean
        refine .waiting (.inl rfl) ?_
        intro r' hr'
        rcases List.mem_cons.mp hr' with rfl | hr'
        · exact hp
        · exact hpast r' hr'
      · obtain ⟨p', hnext⟩ := cycleSection_next l.system.core hclean
        obtain ⟨r', hr', hp'⟩ := reported_section past hp hnext
        have hnow : advance [p] 0 (cycleSection l.system.core p).next = [p'] := by
          rw [hnext]
          rfl
        exact .begun hnow hr' hp' hpast

/-- Anything but a section of a cycle. -/
theorem reports_others {l : CycleLog} {a : SectionAction} (hsingle : l.system.Single)
    (h : l.Reports) (htask : ∀ i, a ≠ .op (.cycleTask i)) : (cycleLogStep l a).Reports := by
  have hreports : (cycleLogStep l a).reports =
      if a.storesProgress l.system then overwriteFirst l.reports else l.reports := by
    cases a with
    | op o =>
        cases o with
        | cycleTask i => exact absurd rfl (htask i)
        | _ => rfl
    | _ => rfl
  have hall : AllSound (cycleLogStep l a).reports := by
    rw [hreports]
    split
    · exact h.all.overwriteFirst
    · exact h.all
  rcases cycles_of_others hsingle htask with (hover | ⟨-, hnew⟩) | ⟨hkept, hcancel, hprogress⟩
  · exact .waiting (.inl hover) hall
  · exact .waiting (.inr hnew) hall
  · cases h with
    | waiting htasks _ =>
        exact .waiting (htasks.imp hkept.trans hkept.trans) hall
    | @begun p r past htasks hlog hp hpast =>
        have hp' := hp.mono (hcancel (by simp [htasks])) hprogress
        refine .begun (hkept.trans htasks) ?_ hp' hpast
        rw [hreports, hlog]
        split <;> rfl

/-- Every task but the one that runs has been heard of. -/
structure CycleLog.Ok (l : CycleLog) : Prop where
  single : l.system.Single
  reports : l.Reports

theorem CycleLog.Ok.step {l : CycleLog} (h : l.Ok) (a : SectionAction) :
    (cycleLogStep l a).Ok := by
  refine ⟨h.single.step a, ?_⟩
  by_cases htask : ∃ i, a = .op (.cycleTask i)
  · obtain ⟨i, rfl⟩ := htask
    exact reports_task h.reports i
  · rw [not_exists] at htask
    exact reports_others h.single h.reports htask

theorem ok_bootLog (it : NvsIterator) (nvs : Nvs) (taskResults : ℕ → Bool) :
    (CycleLog.boot it nvs taskResults).Ok :=
  ⟨single_idle, .waiting (.inl rfl) fun _ hr => absurd hr List.not_mem_nil⟩

/-- What was shown and not overwritten is part of what was stored. -/
theorem CycleReport.Shown.undisturbed {r : CycleReport} (h : r.Shown) :
    r.undisturbed.Sublist r.stored := by
  have hmap : r.undisturbed = (r.ticks.filter fun t => !t.overwritten).map (·.stored) := by
    refine List.map_congr_left fun t ht => ?_
    obtain ⟨hmem, hkept⟩ := List.mem_filter.mp ht
    exact h t hmem (by simpa using hkept)
  rw [hmap]
  exact List.filter_sublist.map _

/-- In every run, the ticks of every cycle store percentages of its plan in order, never
falling and from 0 to 100; a tick shows what it stored, unless another task has stored a
progress in between, so what is shown otherwise never falls; and a cycle updates its counter
and gauges only once it has stored all percentages, the last one being 100, and slept the
time of the plan. -/
theorem cycle_reports (it : NvsIterator) (nvs : Nvs) (taskResults : ℕ → Bool)
    (actions : List SectionAction) :
    ∀ r ∈ (Runs.run cycleLogStep (.boot it nvs taskResults) actions).reports,
      ∃ plan, findPlan r.kind = some plan ∧
        r.stored <+: plan.progressFrom 0 ∧
        r.stored.Pairwise (fun p q => p.toInt ≤ q.toInt) ∧
        (∀ p ∈ r.stored, 0 ≤ p.toInt ∧ p.toInt ≤ 100) ∧
        (∀ t ∈ r.ticks, t.overwritten = false → t.shown = t.stored) ∧
        r.undisturbed.Pairwise (fun p q => p.toInt ≤ q.toInt) ∧
        (r.completed = true → r.stored = plan.progressFrom 0 ∧
          r.stored.getLast? = some 100 ∧ r.slept = plan.totalMs.toNat) := by
  intro r hr
  have hok : (Runs.run cycleLogStep (.boot it nvs taskResults) actions).Ok :=
    Runs.invariant (fun _ a hl => hl.step a) (ok_bootLog it nvs taskResults) actions
  obtain ⟨plan, hsound⟩ := hok.reports.all r hr
  have hgrow : r.stored.Pairwise (fun p q => p.toInt ≤ q.toInt) :=
    (pairwise_progressFrom plan 0).sublist hsound.stored.sublist
  refine ⟨plan, hsound.kind, hsound.stored, hgrow, ?_, hsound.shown, ?_, ?_⟩
  · intro p hp
    exact mem_progressFrom (hsound.stored.subset hp)
  · exact hgrow.sublist hsound.shown.undisturbed
  · intro hdone
    obtain ⟨hplan, hall, hslept, -⟩ := hsound.completed hdone
    refine ⟨hall, ?_, hslept⟩
    rw [hall]
    exact getLast?_progressFrom (findPlan_totalMs hplan).1

/-- A filter is taken out; its ramp of 20 seconds has 40 ticks. -/
def filterRemoveActions : List SectionAction :=
  [.op (.cycleStart .filterRemove), .resume 0, .resume 0] ++
    List.replicate 133 (.op (.cycleTask 0))

theorem cycle_reports_filterRemove :
    let percentages := (List.range 40).map fun i => Int16.ofNat ((i + 1) * 500 * 100 / 20000)
    let r : CycleReport :=
      ⟨.filterRemove, percentages.map fun p => ⟨p, false, p⟩, none, 20000, true⟩
    r ∈ (Runs.run cycleLogStep (.boot NvsIterator.storageOrder Nvs.empty fun _ => true)
      filterRemoveActions).reports ∧
    ∃ plan, findPlan r.kind = some plan ∧
      r.stored <+: plan.progressFrom 0 ∧
      r.stored.Pairwise (fun p q => p.toInt ≤ q.toInt) ∧
      (∀ p ∈ r.stored, 0 ≤ p.toInt ∧ p.toInt ≤ 100) ∧
      (∀ t ∈ r.ticks, t.overwritten = false → t.shown = t.stored) ∧
      r.undisturbed.Pairwise (fun p q => p.toInt ≤ q.toInt) ∧
      (r.completed = true → r.stored = plan.progressFrom 0 ∧
        r.stored.getLast? = some 100 ∧ r.slept = plan.totalMs.toNat) := by
  intro percentages r
  have hr : r ∈ (Runs.run cycleLogStep (.boot NvsIterator.storageOrder Nvs.empty fun _ => true)
      filterRemoveActions).reports := by
    decide +kernel
  exact ⟨hr, cycle_reports _ _ _ _ r hr⟩

-- a console switch between the store and the push of the twentieth tick
example :
    let l := Runs.run cycleLogStep (.boot NvsIterator.storageOrder Nvs.empty fun _ => true)
      ([.op (.cycleStart .filterRemove), .resume 0, .resume 0] ++
        List.replicate 63 (.op (.cycleTask 0)) ++ .op (.familyCli "700") ::
        List.replicate 4 (.resumeSwitch 0) ++ [.op (.cycleTask 0)])
    l.reports.map (fun r => r.ticks.drop 18) = [[⟨47, false, 47⟩, ⟨50, true, 0⟩]] := by
  decide +kernel

end Nivona
