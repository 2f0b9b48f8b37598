import Mathlib.Data.List.Basic

/-!
# Runs of a step function

A run folds a step function over a list of actions.  `Guarded` says that every
action of a run meets a condition in the state it is taken in, and the
invariant rules carry a property from the first state to every state reached.
`Simulates` relates a step function to a more abstract one, so that invariants
of the abstract runs hold of the concrete ones.
-/

namespace Runs

variable {σ α : Type*}

/-- Take the actions one after another. -/
def run (step : σ → α → σ) (s : σ) (actions : List α) : σ :=
  actions.foldl step s

/-- Every action is taken in a state in which the guard allows it. -/
def Guarded (step : σ → α → σ) (guard : σ → α → Prop) : σ → List α → Prop
  | _, [] => True
  | s, a :: rest => guard s a ∧ Guarded step guard (step s a) rest

/-- Whether a run is guarded is decided step by step. -/
instance decidableGuarded (step : σ → α → σ) (guard : σ → α → Prop)
    [∀ s a, Decidable (guard s a)] :
    ∀ (s : σ) (actions : List α), Decidable (Guarded step guard s actions)
  | _, [] => inferInstanceAs (Decidable True)
  | s, a :: rest =>
      have := decidableGuarded step guard (step s a) rest
      inferInstanceAs (Decidable (guard s a ∧ Guarded step guard (step s a) rest))

section

variable {step : σ → α → σ} {guard : σ → α → Prop}

@[simp] theorem run_nil (s : σ) : run step s [] = s := rfl

@[simp] theorem run_cons (s : σ) (a : α) (rest : List α) :
    run step s (a :: rest) = run step (step s a) rest := rfl

@[simp] theorem guarded_nil (s : σ) : Guarded step guard s [] := trivial

@[simp] theorem guarded_cons (s : σ) (a : α) (rest : List α) :
    Guarded step guard s (a :: rest) ↔
      guard s a ∧ Guarded step guard (step s a) rest := Iff.rfl

theorem run_append (s : σ) (as bs : List α) :
    run step s (as ++ bs) = run step (run step s as) bs :=
  List.foldl_append

theorem guarded_append (s : σ) (as bs : List α) :
    Guarded step guard s (as ++ bs) ↔
      Guarded step guard s as ∧ Guarded step guard (run step s as) bs := by
  induction as generalizing s with
  | nil => simp
  | cons a as ih => simp [ih, and_assoc]

/-- The guard of a run, action by action. -/
theorem guarded_iff_getElem? (s : σ) (actions : List α) :
    Guarded step guard s actions ↔
      ∀ n a, actions[n]? = some a → guard (run step s (actions.take n)) a := by
  induction actions generalizing s with
  | nil => simp
  | cons b rest ih =>
      rw [guarded_cons, ih]
      constructor
      · rintro ⟨hb, hrest⟩ n a hn
        cases n with
        | zero =>
            obtain rfl := Option.some.inj hn
            exact hb
        | succ n => exact hrest n a hn
      · intro h
        exact ⟨h 0 b rfl, fun n a hn => h (n + 1) a hn⟩

/-- Actions that are allowed in every state form a guarded run. -/
theorem guarded_of_forall (s : σ) {actions : List α}
    (h : ∀ a ∈ actions, ∀ s, guard s a) : Guarded step guard s actions := by
  induction actions generalizing s with
  | nil => trivial
  | cons a rest ih =>
      exact ⟨h a List.mem_cons_self s, ih _ fun b hb => h b (List.mem_cons_of_mem a hb)⟩

/-- What every guarded step preserves holds at the end of a guarded run. -/
theorem Guarded.invariant {P : σ → Prop}
    (hstep : ∀ s a, P s → guard s a → P (step s a))
    {s : σ} {actions : List α} (hrun : Guarded step guard s actions)
    (hinit : P s) : P (run step s actions) := by
  induction actions generalizing s with
  | nil => exact hinit
  | cons a rest ih => exact ih hrun.2 (hstep s a hinit hrun.1)

/-- A number that every counted action lowers is lowered as often as they are taken. -/
theorem Guarded.countdown {P : σ → Prop} {m : σ → ℕ} {counted : α → Bool}
    (hstep : ∀ s a, P s → guard s a →
      P (step s a) ∧ m (step s a) ≤ m s - if counted a then 1 else 0)
    {s : σ} {actions : List α} (hrun : Guarded step guard s actions) (hinit : P s) :
    m (run step s actions) ≤ m s - actions.countP counted := by
  induction actions generalizing s with
  | nil => exact Nat.le_refl _
  | cons a rest ih =>
      obtain ⟨hkeep, hlower⟩ := hstep s a hinit hrun.1
      have hrest := ih hrun.2 hkeep
      rw [run_cons, List.countP_cons]
      omega

/-- What every step preserves holds at the end of every run. -/
theorem invariant {P : σ → Prop} (hstep : ∀ s a, P s → P (step s a))
    {s : σ} (hinit : P s) (actions : List α) : P (run step s actions) := by
  induction actions generalizing s with
  | nil => exact hinit
  | cons a rest ih => exact ih (hstep s a hinit)

/-- When the guard is just what a step needs to preserve a property, the runs on
which the property holds throughout are the guarded ones. -/
theorem forall_prefix_iff_guarded (P : σ → Prop) (allowed : α → Prop)
    (hstep : ∀ s a, allowed a → P s → (P (step s a) ↔ guard s a)) {s : σ} (hinit : P s)
    {actions : List α} (hallowed : ∀ a ∈ actions, allowed a) :
    (∀ before, before <+: actions → P (run step s before)) ↔ Guarded step guard s actions := by
  induction actions generalizing s with
  | nil => simpa using hinit
  | cons a rest ih =>
      have ha := hstep s a (hallowed a List.mem_cons_self) hinit
      have hrest : ∀ b ∈ rest, allowed b := fun b hb => hallowed b (List.mem_cons_of_mem a hb)
      constructor
      · intro h
        have hnext : P (step s a) := h [a] (by simp)
        refine ⟨ha.mp hnext, (ih hnext hrest).mp ?_⟩
        intro before hbefore
        exact h (a :: before) (by simpa using hbefore)
      · rintro ⟨hguard, hrun⟩ before hbefore
        rcases before with _ | ⟨b, before⟩
        · exact hinit
        · obtain ⟨rfl, htail⟩ := List.cons_prefix_cons.mp hbefore
          exact (ih (ha.mpr hguard) hrest).mpr hrun before htail

/-- A guarded run stays guarded when it is cut short. -/
theorem Guarded.prefix_of {s : σ} {as bs : List α}
    (h : Guarded step guard s (as ++ bs)) : Guarded step guard s as :=
  ((guarded_append s as bs).mp h).1

end

/-! ## Simulation -/

section

variable {τ β : Type*}

/-- On the abstraction, every step that the guard allows is a run of steps that
the abstract guard allows. -/
def Simulates (abs : σ → τ) (step : σ → α → σ) (guard : σ → α → Prop)
    (absStep : τ → β → τ) (absGuard : τ → β → Prop) : Prop :=
  ∀ s a, guard s a → ∃ bs, Guarded absStep absGuard (abs s) bs ∧
    abs (step s a) = run absStep (abs s) bs

variable {abs : σ → τ} {step : σ → α → σ} {guard : σ → α → Prop} {absStep : τ → β → τ}
  {absGuard : τ → β → Prop}

/-- A guarded run is a guarded run on the abstraction. -/
theorem Simulates.run (h : Simulates abs step guard absStep absGuard) {s : σ}
    {actions : List α} (hrun : Guarded step guard s actions) :
    ∃ bs, Guarded absStep absGuard (abs s) bs ∧
      abs (run step s actions) = Runs.run absStep (abs s) bs := by
  induction actions generalizing s with
  | nil => exact ⟨[], trivial, rfl⟩
  | cons a rest ih =>
      obtain ⟨bs, hbs, hstep⟩ := h s a hrun.1
      obtain ⟨cs, hcs, hrest⟩ := ih hrun.2
      rw [hstep] at hcs hrest
      refine ⟨bs ++ cs, (guarded_append _ bs cs).mpr ⟨hbs, hcs⟩, ?_⟩
      rw [run_append]
      exact hrest

/-- What every abstract step preserves holds of the abstraction at the end of a
guarded run. -/
theorem Simulates.invariant (h : Simulates abs step guard absStep absGuard) {P : τ → Prop}
    (hpres : ∀ t b, P t → absGuard t b → P (absStep t b)) {s : σ} {actions : List α}
    (hrun : Guarded step guard s actions) (hinit : P (abs s)) :
    P (abs (Runs.run step s actions)) := by
  obtain ⟨bs, hbs, hend⟩ := h.run hrun
  rw [hend]
  exact hbs.invariant hpres hinit

end

end Runs
