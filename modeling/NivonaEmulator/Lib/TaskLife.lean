import NivonaEmulator.Lib.Runs

/-!
# Lives of a module's tasks

A module that runs one task at a time keeps four variables: whether a task is
active, whether it is to be cancelled, the argument of the last start, and the
tasks there are.  A start creates a task, a cancel sets the flag, and the task
takes its argument, checks the flag once, applies its effects if the flag was
clear, and finishes.  `History` records what each task has done, and every
history agrees with the variables.
-/

namespace TaskLife

variable {Arg Ctx : Type*}

/-- How far a task has got. -/
inductive Phase (Arg : Type*)
  | created
  /-- has taken its argument, not yet checked the flag -/
  | running (arg : Arg)
  /-- found the flag clear, its effects are still to come -/
  | approved (arg : Arg)
  | finishing

/-- The variables of a module. -/
structure Slot (Arg : Type*) where
  active : Bool
  cancel : Bool
  arg : Arg
  tasks : List (Phase Arg)

/-- What can happen to a module; the `i`-th task does the middle four. -/
inductive SlotEvent (Arg Ctx : Type*)
  | start (arg : Arg) (created : Bool)
  | cancel
  | take (i : ℕ)
  | check (i : ℕ)
  | apply (i : ℕ) (ctx : Ctx)
  | finish (i : ℕ)
  | other
  | restart (arg : Arg)

/-- A module without a task. -/
def Slot.idle (arg : Arg) : Slot Arg :=
  { active := false, cancel := false, arg := arg, tasks := [] }

/-- A start is refused while a task is active, and undone when no task can be
created.  A task that is not at the point of the event does nothing. -/
def Slot.step (s : Slot Arg) : SlotEvent Arg Ctx → Slot Arg
  | .start arg created =>
      if s.active then s
      else
        { active := created
          cancel := false
          arg := arg
          tasks := if created then s.tasks ++ [.created] else s.tasks }
  | .cancel => if s.active then { s with cancel := true } else s
  | .take i =>
      match s.tasks[i]? with
      | some .created => { s with tasks := s.tasks.set i (.running s.arg) }
      | _ => s
  | .check i =>
      match s.tasks[i]? with
      | some (.running arg) =>
          { s with tasks := s.tasks.set i (if s.cancel then .finishing else .approved arg) }
      | _ => s
  | .apply i _ =>
      match s.tasks[i]? with
      | some (.approved _) => { s with tasks := s.tasks.set i .finishing }
      | _ => s
  | .finish i =>
      match s.tasks[i]? with
      | some .finishing =>
          { s with active := false, cancel := false, tasks := s.tasks.eraseIdx i }
      | _ => s
  | .other => s
  | .restart arg => Slot.idle arg

/-! ## Histories -/

/-- What one task has done. -/
structure Life (Arg Ctx : Type*) where
  /-- argument of the start that created it -/
  stored : Arg
  /-- arguments it has taken -/
  used : List Arg
  /-- a cancel was accepted before its check -/
  cancelled : Bool
  checked : Bool
  /-- arguments and contexts of the effects it has applied -/
  applied : List (Arg × Ctx)

def Life.new (arg : Arg) : Life Arg Ctx :=
  { stored := arg, used := [], cancelled := false, checked := false, applied := [] }

/-- A cancel comes too late for a task that has checked the flag. -/
def Life.cancel (l : Life Arg Ctx) : Life Arg Ctx :=
  if l.checked then l else { l with cancelled := true }

/-- The lives that have ended, and those of the tasks there are. -/
structure History (Arg Ctx : Type*) where
  past : List (Life Arg Ctx)
  current : List (Life Arg Ctx)

def History.empty : History Arg Ctx :=
  { past := [], current := [] }

/-- All lives so far. -/
def History.lives (h : History Arg Ctx) : List (Life Arg Ctx) :=
  h.past ++ h.current

/-- Record an event; a restart breaks the current lives off. -/
def History.observe (h : History Arg Ctx) (s : Slot Arg) : SlotEvent Arg Ctx → History Arg Ctx
  | .start arg created =>
      if !s.active && created then { h with current := h.current ++ [Life.new arg] } else h
  | .cancel => if s.active then { h with current := h.current.map Life.cancel } else h
  | .take i =>
      match s.tasks[i]? with
      | some .created =>
          { h with current := h.current.modify i fun l => { l with used := l.used ++ [s.arg] } }
      | _ => h
  | .check i =>
      match s.tasks[i]? with
      | some (.running _) =>
          { h with current := h.current.modify i fun l => { l with checked := true } }
      | _ => h
  | .apply i ctx =>
      match s.tasks[i]? with
      | some (.approved arg) =>
          { h with
            current := h.current.modify i fun l =>
              { l with applied := l.applied ++ [(arg, ctx)] } }
      | _ => h
  | .finish i =>
      match s.tasks[i]? with
      | some .finishing =>
          { past := h.past ++ h.current[i]?.toList, current := h.current.eraseIdx i }
      | _ => h
  | .other => h
  | .restart _ => { h with current := [] }

/-! ## What the history says -/

/-- The task used what was stored for it, and applied its effects once unless
it was cancelled in time. -/
structure Life.Done (l : Life Arg Ctx) : Prop where
  used : l.used = [l.stored]
  applied : if l.cancelled then l.applied = [] else ∃ ctx, l.applied = [(l.stored, ctx)]

/-- What holds of a task at any time. -/
structure Life.Sound (l : Life Arg Ctx) : Prop where
  used : ∀ arg ∈ l.used, arg = l.stored
  applied : ∀ e ∈ l.applied, e.1 = l.stored
  atMostOnce : l.applied.length ≤ 1
  notCancelled : l.cancelled = true → l.applied = []

theorem Life.Done.sound {l : Life Arg Ctx} (h : l.Done) : l.Sound := by
  obtain ⟨hused, happlied⟩ := h
  have hall : ∀ arg ∈ l.used, arg = l.stored := by simp [hused]
  by_cases hcancelled : l.cancelled = true
  · rw [if_pos hcancelled] at happlied
    constructor <;> simp [hused, happlied]
  · rw [if_neg hcancelled] at happlied
    obtain ⟨ctx, hctx⟩ := happlied
    constructor <;> simp [hused, hctx, hcancelled]

/-- The history agrees with the flags and the number of tasks. -/
structure Agrees (active cancel : Bool) (tasks : ℕ) (h : History Arg Ctx) : Prop where
  atMostOne : tasks ≤ 1
  active_iff : active = true ↔ tasks = 1
  current : h.current.length = tasks
  cancel : active = false → cancel = false
  sound : ∀ l ∈ h.lives, l.Sound
  done : ∀ l ∈ h.past, l.Done

/-! ## The invariant -/

/-- The life of a task, by its phase. -/
def PhaseOk (s : Slot Arg) : Phase Arg → Life Arg Ctx → Prop
  | .created, l => l = { Life.new s.arg with cancelled := s.cancel }
  | .running arg, l =>
      arg = s.arg ∧ l = { Life.new s.arg with used := [s.arg], cancelled := s.cancel }
  | .approved arg, l =>
      arg = s.arg ∧ l = { Life.new s.arg with used := [s.arg], checked := true }
  | .finishing, l => l.checked = true ∧ l.Done

/-- Without a task the flags are clear; with one, its phase tells its life. -/
inductive Consistent (s : Slot Arg) (h : History Arg Ctx) : Prop
  | idle (hactive : s.active = false) (hcancel : s.cancel = false) (htasks : s.tasks = [])
      (hcurrent : h.current = []) (hpast : ∀ l ∈ h.past, l.Done)
  | busy {p : Phase Arg} {l : Life Arg Ctx} (hactive : s.active = true) (htasks : s.tasks = [p])
      (hcurrent : h.current = [l]) (hphase : PhaseOk s p l) (hpast : ∀ l ∈ h.past, l.Done)

theorem consistent_idle (arg : Arg) :
    Consistent (Slot.idle arg) (History.empty : History Arg Ctx) :=
  .idle rfl rfl rfl rfl (by simp [History.empty])

theorem PhaseOk.sound {s : Slot Arg} {p : Phase Arg} {l : Life Arg Ctx} (h : PhaseOk s p l) :
    l.Sound := by
  cases p with
  | created =>
      obtain rfl := h
      constructor <;> simp [Life.new]
  | running arg =>
      obtain ⟨-, rfl⟩ := h
      constructor <;> simp [Life.new]
  | approved arg =>
      obtain ⟨-, rfl⟩ := h
      constructor <;> simp [Life.new]
  | finishing => exact h.2.sound

/-- A cancel is recorded unless the check is over. -/
theorem PhaseOk.cancel {s : Slot Arg} {p : Phase Arg} {l : Life Arg Ctx} (h : PhaseOk s p l) :
    PhaseOk { s with cancel := true } p l.cancel := by
  cases p with
  | created =>
      obtain rfl := h
      rfl
  | running arg =>
      obtain ⟨harg, rfl⟩ := h
      exact ⟨harg, rfl⟩
  | approved arg =>
      obtain ⟨harg, rfl⟩ := h
      exact ⟨harg, rfl⟩
  | finishing =>
      obtain ⟨hchecked, hdone⟩ := h
      rw [Life.cancel, if_pos hchecked]
      exact ⟨hchecked, hdone⟩

/-- From no task, an event leaves none or creates one. -/
theorem consistent_step_idle {s : Slot Arg} {h : History Arg Ctx} (hactive : s.active = false)
    (hcancel : s.cancel = false) (htasks : s.tasks = []) (hcurrent : h.current = [])
    (hpast : ∀ l ∈ h.past, l.Done) (e : SlotEvent Arg Ctx) :
    Consistent (s.step e) (h.observe s e) := by
  have hkeep : Consistent s h := .idle hactive hcancel htasks hcurrent hpast
  cases e with
  | start arg created =>
      have hstep : s.step (.start arg created : SlotEvent Arg Ctx) =
          { active := created, cancel := false, arg := arg
            tasks := if created then [.created] else [] } := by
        simp [Slot.step, hactive, htasks]
      rw [hstep]
      cases created with
      | false =>
          rw [History.observe, Bool.and_false, if_neg Bool.false_ne_true]
          exact .idle rfl rfl rfl hcurrent hpast
      | true =>
          rw [History.observe, hactive, Bool.not_false, Bool.and_true, if_pos rfl, hcurrent]
          exact .busy rfl rfl rfl rfl hpast
  | cancel => simpa [Slot.step, History.observe, hactive] using hkeep
  | restart arg => exact .idle rfl rfl rfl rfl hpast
  | _ => simpa [Slot.step, History.observe, htasks] using hkeep

/-- With one task, an event is refused, or a step of that task, or a cancel. -/
theorem consistent_step_busy {s : Slot Arg} {h : History Arg Ctx} {p : Phase Arg}
    {l : Life Arg Ctx} (hactive : s.active = true) (htasks : s.tasks = [p])
    (hcurrent : h.current = [l]) (hphase : PhaseOk s p l) (hpast : ∀ l ∈ h.past, l.Done)
    (e : SlotEvent Arg Ctx) : Consistent (s.step e) (h.observe s e) := by
  have hkeep : Consistent s h := .busy hactive htasks hcurrent hphase hpast
  have hother (i : ℕ) : s.tasks[i + 1]? = none := by simp [htasks]
  have hfirst : s.tasks[0]? = some p := by simp [htasks]
  cases e with
  | start arg created => simpa [Slot.step, History.observe, hactive] using hkeep
  | cancel =>
      rw [Slot.step, History.observe, if_pos hactive, if_pos hactive, hcurrent]
      exact .busy hactive htasks rfl hphase.cancel hpast
  | take i =>
      cases i with
      | succ i => simpa [Slot.step, History.observe, hother] using hkeep
      | zero =>
          cases p with
          | created =>
              obtain rfl := hphase
              simp only [Slot.step, History.observe, htasks, hcurrent]
              exact .busy hactive rfl rfl ⟨rfl, rfl⟩ hpast
          | _ => simpa [Slot.step, History.observe, hfirst] using hkeep
  | check i =>
      cases i with
      | succ i => simpa [Slot.step, History.observe, hother] using hkeep
      | zero =>
          cases p with
          | running arg =>
              obtain ⟨rfl, rfl⟩ := hphase
              simp only [Slot.step, History.observe, htasks, hcurrent]
              cases hcancel : s.cancel with
              | false => exact .busy hactive rfl rfl ⟨rfl, rfl⟩ hpast
              | true => exact .busy hactive rfl rfl ⟨rfl, rfl, rfl⟩ hpast
          | _ => simpa [Slot.step, History.observe, hfirst] using hkeep
  | apply i ctx =>
      cases i with
      | succ i => simpa [Slot.step, History.observe, hother] using hkeep
      | zero =>
          cases p with
          | approved arg =>
              obtain ⟨rfl, rfl⟩ := hphase
              simp only [Slot.step, History.observe, htasks, hcurrent]
              exact .busy hactive rfl rfl ⟨rfl, rfl, ctx, rfl⟩ hpast
          | _ => simpa [Slot.step, History.observe, hfirst] using hkeep
  | finish i =>
      cases i with
      | succ i => simpa [Slot.step, History.observe, hother] using hkeep
      | zero =>
          cases p with
          | finishing =>
              simp only [Slot.step, History.observe, htasks, hcurrent]
              refine .idle rfl rfl rfl rfl ?_
              intro life hlife
              rcases List.mem_append.mp hlife with hold | hnew
              · exact hpast life hold
              · obtain rfl : life = l := by simpa using hnew
                exact hphase.2
          | _ => simpa [Slot.step, History.observe, hfirst] using hkeep
  | other => exact hkeep
  | restart arg => exact .idle rfl rfl rfl rfl hpast

/-- Every event preserves the invariant. -/
theorem consistent_step {s : Slot Arg} {h : History Arg Ctx} (hcons : Consistent s h)
    (e : SlotEvent Arg Ctx) : Consistent (s.step e) (h.observe s e) := by
  cases hcons with
  | idle hactive hcancel htasks hcurrent hpast =>
      exact consistent_step_idle hactive hcancel htasks hcurrent hpast e
  | busy hactive htasks hcurrent hphase hpast =>
      exact consistent_step_busy hactive htasks hcurrent hphase hpast e

/-- A consistent history agrees with the variables. -/
theorem Consistent.agrees {s : Slot Arg} {h : History Arg Ctx} (hcons : Consistent s h) :
    Agrees s.active s.cancel s.tasks.length h := by
  cases hcons with
  | idle hactive hcancel htasks hcurrent hpast =>
      constructor
      · simp [htasks]
      · simp [hactive, htasks]
      · simp [htasks, hcurrent]
      · exact fun _ => hcancel
      · intro l hl
        rw [History.lives, hcurrent, List.append_nil] at hl
        exact (hpast l hl).sound
      · exact hpast
  | busy hactive htasks hcurrent hphase hpast =>
      constructor
      · simp [htasks]
      · simp [hactive, htasks]
      · simp [htasks, hcurrent]
      · exact fun hidle => absurd (hidle.symm.trans hactive) Bool.false_ne_true
      · intro l hl
        rw [History.lives, hcurrent, List.mem_append, List.mem_singleton] at hl
        rcases hl with hl | rfl
        · exact (hpast l hl).sound
        · exact hphase.sound
      · exact hpast

/-! ## Effects in order -/

/-- The effects of all lives. -/
def History.applied (h : History Arg Ctx) : List (Arg × Ctx) :=
  h.lives.flatMap Life.applied

/-- The effect an event applies, if any. -/
def Slot.appliedBy (s : Slot Arg) : SlotEvent Arg Ctx → List (Arg × Ctx)
  | .apply i ctx =>
      match s.tasks[i]? with
      | some (.approved arg) => [(arg, ctx)]
      | _ => []
  | _ => []

/-- Effects are recorded in the order they are applied in. -/
theorem applied_observe {s : Slot Arg} {h : History Arg Ctx} (hcons : Consistent s h)
    {e : SlotEvent Arg Ctx} (he : ∀ arg, e ≠ .restart arg) :
    (h.observe s e).applied = h.applied ++ s.appliedBy e := by
  cases hcons with
  | idle hactive hcancel htasks hcurrent hpast =>
      cases e with
      | restart arg => exact absurd rfl (he arg)
      | start arg created =>
          cases created <;>
            simp [History.observe, History.applied, History.lives, Slot.appliedBy, hactive,
              Life.new]
      | cancel => simp [History.observe, Slot.appliedBy, hactive]
      | _ => simp [History.observe, Slot.appliedBy, htasks]
  | @busy p l hactive htasks hcurrent hphase hpast =>
      have hcancel : l.cancel.applied = l.applied := by
        rw [Life.cancel]
        split <;> rfl
      cases e with
      | restart arg => exact absurd rfl (he arg)
      | start arg created => simp [History.observe, Slot.appliedBy, hactive]
      | cancel =>
          simp [History.observe, History.applied, History.lives, Slot.appliedBy, hactive, hcurrent,
            hcancel]
      | other => simp [History.observe, Slot.appliedBy]
      | take i =>
          cases i <;> cases p <;>
            simp [History.observe, History.applied, History.lives, Slot.appliedBy, htasks, hcurrent]
      | check i =>
          cases i <;> cases p <;>
            simp [History.observe, History.applied, History.lives, Slot.appliedBy, htasks, hcurrent]
      | apply i ctx =>
          cases i <;> cases p <;>
            simp [History.observe, History.applied, History.lives, Slot.appliedBy, htasks, hcurrent]
      | finish i =>
          cases i <;> cases p <;>
            simp [History.observe, History.applied, History.lives, Slot.appliedBy, htasks, hcurrent]

theorem Consistent.singleton {s : Slot Arg} {h : History Arg Ctx} (hcons : Consistent s h)
    (hbusy : s.tasks ≠ []) : ∃ p, s.tasks = [p] := by
  cases hcons with
  | idle hactive hcancel htasks hcurrent hpast => exact absurd htasks hbusy
  | busy hactive htasks hcurrent hphase hpast => exact ⟨_, htasks⟩

/-! ## Watching a module of a system -/

section

variable {σ α : Type*} {step : σ → α → σ} {slot : σ → Slot Arg} {event : σ → α → SlotEvent Arg Ctx}

/-- A step of a system that also records the event it is for one module. -/
def watch (step : σ → α → σ) (slot : σ → Slot Arg) (event : σ → α → SlotEvent Arg Ctx)
    (x : σ × History Arg Ctx) (a : α) : σ × History Arg Ctx :=
  (step x.1 a, x.2.observe (slot x.1) (event x.1 a))

/-- The history of a module in a run. -/
def historyOf (step : σ → α → σ) (slot : σ → Slot Arg) (event : σ → α → SlotEvent Arg Ctx)
    (s : σ) (actions : List α) : History Arg Ctx :=
  (Runs.run (watch step slot event) (s, History.empty) actions).2

/-- Watching does not change the run. -/
theorem run_watch_fst (s : σ) (h : History Arg Ctx) (actions : List α) :
    (Runs.run (watch step slot event) (s, h) actions).1 = Runs.run step s actions := by
  induction actions generalizing s h with
  | nil => rfl
  | cons a rest ih => exact ih _ _

/-- When every step acts on the module as its event says, the history agrees
with the module in every state of a run. -/
theorem consistent_run (slot : σ → Slot Arg) (event : σ → α → SlotEvent Arg Ctx) {Inv : σ → Prop}
    (hinv : ∀ s a, Inv s → Inv (step s a))
    (hslot : ∀ s a, Inv s → slot (step s a) = (slot s).step (event s a)) {s : σ} {arg : Arg}
    (hs : Inv s) (hidle : slot s = Slot.idle arg) (actions : List α) :
    Consistent (slot (Runs.run step s actions)) (historyOf step slot event s actions) := by
  let P (x : σ × History Arg Ctx) : Prop := Inv x.1 ∧ Consistent (slot x.1) x.2
  have hstep (x : σ × History Arg Ctx) (a : α) (hx : P x) : P (watch step slot event x a) := by
    refine ⟨hinv x.1 a hx.1, ?_⟩
    rw [watch, hslot x.1 a hx.1]
    exact consistent_step hx.2 _
  have hinit : P (s, History.empty) := by
    refine ⟨hs, ?_⟩
    rw [hidle]
    exact consistent_idle arg
  have hrun := (Runs.invariant hstep hinit actions).2
  rwa [run_watch_fst] at hrun

/-- A history is continued from where it is. -/
theorem historyOf_append (s : σ) (as bs : List α) :
    historyOf step slot event s (as ++ bs) =
      (Runs.run (watch step slot event)
        (Runs.run step s as, historyOf step slot event s as) bs).2 := by
  have hfst : (Runs.run (watch step slot event) (s, History.empty) as).1 = Runs.run step s as :=
    run_watch_fst s History.empty as
  rw [historyOf, Runs.run_append, ← hfst]
  rfl

/-- The effects a run applies, in order. -/
def effectsOf (step : σ → α → σ) (slot : σ → Slot Arg) (event : σ → α → SlotEvent Arg Ctx) :
    σ → List α → List (Arg × Ctx)
  | _, [] => []
  | s, a :: rest => (slot s).appliedBy (event s a) ++ effectsOf step slot event (step s a) rest

/-- A run without restarts adds its effects to those of the history. -/
theorem applied_run (slot : σ → Slot Arg) (event : σ → α → SlotEvent Arg Ctx) {Inv : σ → Prop}
    (hinv : ∀ s a, Inv s → Inv (step s a))
    (hslot : ∀ s a, Inv s → slot (step s a) = (slot s).step (event s a)) {allowed : α → Prop}
    (hrestart : ∀ s a arg, allowed a → event s a ≠ .restart arg) {s : σ} {h : History Arg Ctx}
    (hs : Inv s) (hcons : Consistent (slot s) h) {actions : List α}
    (hactions : ∀ a ∈ actions, allowed a) :
    (Runs.run (watch step slot event) (s, h) actions).2.applied =
      h.applied ++ effectsOf step slot event s actions := by
  induction actions generalizing s h with
  | nil => simp [effectsOf]
  | cons a rest ih =>
      have ha := hactions a List.mem_cons_self
      have hcons' := consistent_step hcons (event s a)
      rw [← hslot s a hs] at hcons'
      have hrest := ih (hinv s a hs) hcons' fun b hb => hactions b (List.mem_cons_of_mem a hb)
      rw [applied_observe hcons fun arg => hrestart s a arg ha, List.append_assoc] at hrest
      exact hrest

theorem past_length_observe_le (h : History Arg Ctx) (s : Slot Arg) (e : SlotEvent Arg Ctx) :
    h.past.length ≤ (h.observe s e).past.length := by
  cases e with
  | other => exact Nat.le_refl _
  | restart arg => exact Nat.le_refl _
  | _ =>
      simp only [History.observe]
      split <;> simp

theorem past_length_run_le (x : σ × History Arg Ctx) (actions : List α) :
    x.2.past.length ≤ (Runs.run (watch step slot event) x actions).2.past.length := by
  induction actions generalizing x with
  | nil => exact Nat.le_refl _
  | cons a rest ih =>
      have hstep := past_length_observe_le x.2 (slot x.1) (event x.1 a)
      exact Nat.le_trans hstep (ih (watch step slot event x a))

/-- Unless it is broken off, a task ends or is still there. -/
theorem ended_or_kept {s : Slot Arg} {h : History Arg Ctx} (hcons : Consistent s h)
    (hbusy : s.tasks ≠ []) {e : SlotEvent Arg Ctx} (he : ∀ arg, e ≠ .restart arg) :
    h.past.length < (h.observe s e).past.length ∨ (s.step e).tasks ≠ [] := by
  cases hcons with
  | idle hactive hcancel htasks hcurrent hpast => exact absurd htasks hbusy
  | @busy p l hactive htasks hcurrent hphase hpast =>
      cases e with
      | restart arg => exact absurd rfl (he arg)
      | finish i =>
          cases i with
          | succ i => exact .inr (by simp [Slot.step, htasks])
          | zero =>
              cases p with
              | finishing => exact .inl (by simp [History.observe, htasks, hcurrent])
              | _ => exact .inr (by simp [Slot.step, htasks])
      | start arg created => exact .inr (by simp [Slot.step, hactive, htasks])
      | cancel => exact .inr (by simp [Slot.step, hactive, htasks])
      | other => exact .inr hbusy
      | _ =>
          right
          simp only [Slot.step]
          split <;> simp [htasks]

/-- A task ends when a rank that no action raises falls with each of its steps
and it takes more steps than its rank. -/
theorem past_grows (slot : σ → Slot Arg) (event : σ → α → SlotEvent Arg Ctx) (rank : σ → ℕ)
    {Inv : σ → Prop} (hinv : ∀ s a, Inv s → Inv (step s a))
    (hslot : ∀ s a, Inv s → slot (step s a) = (slot s).step (event s a))
    {allowed : α → Prop} {tick : α → Bool}
    (hrestart : ∀ s a arg, allowed a → event s a ≠ .restart arg)
    (hrank : ∀ s a p, allowed a → (slot s).tasks = [p] → (slot (step s a)).tasks ≠ [] →
      rank (step s a) + (tick a).toNat ≤ rank s)
    {s : σ} {h : History Arg Ctx} (hs : Inv s) (hcons : Consistent (slot s) h)
    (hbusy : (slot s).tasks ≠ []) {more : List α} (hmore : ∀ a ∈ more, allowed a)
    (hticks : rank s < more.countP tick) :
    h.past.length < (Runs.run (watch step slot event) (s, h) more).2.past.length := by
  induction more generalizing s h with
  | nil => exact absurd hticks (Nat.not_lt_zero _)
  | cons a rest ih =>
      have ha := hmore a List.mem_cons_self
      have hrest : ∀ b ∈ rest, allowed b := fun b hb => hmore b (List.mem_cons_of_mem a hb)
      have hstep := past_length_observe_le h (slot s) (event s a)
      rw [Runs.run_cons, watch]
      rcases ended_or_kept hcons hbusy fun arg => hrestart s a arg ha with hended | hkept
      · exact Nat.lt_of_lt_of_le hended
          (past_length_run_le (_, h.observe (slot s) (event s a)) rest)
      · have hcons' := consistent_step hcons (event s a)
        obtain ⟨p, hp⟩ := hcons.singleton hbusy
        rw [← hslot s a hs] at hkept hcons'
        have hfall := hrank s a p ha hp hkept
        have hticks' : rank (step s a) < rest.countP tick := by
          rw [List.countP_cons] at hticks
          cases htick : tick a <;> simp [htick] at hticks hfall <;> omega
        exact Nat.lt_of_le_of_lt hstep (ih (hinv s a hs) hcons' hkept hrest hticks')

end

end TaskLife
