import NivonaEmulator.Lib.Runs

/-!
# Two runs side by side

A property of two runs is proved by a relation between their states that every
pair of steps keeps.  The relation yields equal observations of the two runs
when the steps of related states look alike.  Where it needs a guard on the
pair, the guarded pairs of runs can be the ones that agree throughout.
-/

namespace Lockstep

variable {σ α ω : Type*}

/-- Both systems take the action. -/
def step (f : σ → α → σ) (p : σ × σ) (a : α) : σ × σ :=
  (f p.1 a, f p.2 a)

theorem run_step (f : σ → α → σ) (p : σ × σ) (actions : List α) :
    Runs.run (step f) p actions = (Runs.run f p.1 actions, Runs.run f p.2 actions) := by
  induction actions generalizing p with
  | nil => rfl
  | cons a rest ih => exact ih (step f p a)

/-- A relation that every pair of steps keeps holds between the runs. -/
theorem run_related {f : σ → α → σ} {R : σ → σ → Prop}
    (hstep : ∀ s t a, R s t → R (f s a) (f t a)) {s t : σ} (h : R s t) (actions : List α) :
    R (Runs.run f s actions) (Runs.run f t actions) := by
  induction actions generalizing s t with
  | nil => exact h
  | cons a rest ih => exact ih (hstep s t a h)

/-! ## Observations -/

/-- What is seen of a run, action by action. -/
def observe (f : σ → α → σ) (view : σ → α → ω) : σ → List α → List ω
  | _, [] => []
  | s, a :: rest => view s a :: observe f view (f s a) rest

/-- Runs whose steps keep a relation, and look alike under it, are seen alike. -/
theorem observe_eq {f : σ → α → σ} {view : σ → α → ω} {R : σ → σ → Prop}
    {allowed : α → Prop}
    (hstep : ∀ s t a, allowed a → R s t → R (f s a) (f t a) ∧ view s a = view t a)
    {s t : σ} (h : R s t) {actions : List α} (hactions : ∀ a ∈ actions, allowed a) :
    observe f view s actions = observe f view t actions := by
  induction actions generalizing s t with
  | nil => rfl
  | cons a rest ih =>
      obtain ⟨hnext, hview⟩ := hstep s t a (hactions a List.mem_cons_self) h
      have hrest : ∀ b ∈ rest, allowed b :=
        fun b hb => hactions b (List.mem_cons_of_mem a hb)
      rw [observe, observe, hview, ih hnext hrest]

/-! ## Guarded pairs -/

/-- A relation that guarded steps keep, and out of which a step shows the same
in both runs exactly when it meets the guard: two runs show the same in every
step exactly when all their steps meet the guard. -/
theorem guarded_iff_guarded {f : σ → α → σ} {R : σ → σ → Prop} {shows guard : σ × σ → α → Prop}
    (hkeep : ∀ s t a, R s t → guard (s, t) a → R (f s a) (f t a))
    (hiff : ∀ s t a, R s t → (shows (s, t) a ↔ guard (s, t) a))
    {s t : σ} (h : R s t) (actions : List α) :
    Runs.Guarded (step f) shows (s, t) actions ↔ Runs.Guarded (step f) guard (s, t) actions := by
  induction actions generalizing s t with
  | nil => exact Iff.rfl
  | cons a rest ih =>
      rw [Runs.guarded_cons, Runs.guarded_cons, hiff s t a h]
      constructor
      · rintro ⟨hguard, hrest⟩
        exact ⟨hguard, (ih (hkeep s t a h hguard)).mp hrest⟩
      · rintro ⟨hguard, hrest⟩
        exact ⟨hguard, (ih (hkeep s t a h hguard)).mpr hrest⟩

end Lockstep
