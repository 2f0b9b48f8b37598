import NivonaEmulator.Lib.Runs

/-!
# Calls that take effect at once

A sequential object answers calls one after another.  A system in which calls
overlap is as good as the object when the calls, in the order in which they
return, get the answers the object gives in that order.
-/

namespace SequentialObject

variable {ν γ α : Type*}

/-- The calls were answered as the object answers them, one after another. -/
def Legal (spec : ν → γ → ν × α) : ν → List (γ × α) → Prop
  | _, [] => True
  | v, r :: rest => r.2 = (spec v r.1).2 ∧ Legal spec (spec v r.1).1 rest

/-- The object after the calls. -/
def final (spec : ν → γ → ν × α) (v : ν) (answered : List (γ × α)) : ν :=
  answered.foldl (fun v r => (spec v r.1).1) v

section

variable {spec : ν → γ → ν × α}

theorem legal_snoc {v : ν} {answered : List (γ × α)} (h : Legal spec v answered) (c : γ) :
    Legal spec v (answered ++ [(c, (spec (final spec v answered) c).2)]) := by
  induction answered generalizing v with
  | nil => exact ⟨rfl, trivial⟩
  | cons r rest ih => exact ⟨h.1, ih h.2⟩

theorem final_snoc (v : ν) (answered : List (γ × α)) (r : γ × α) :
    final spec v (answered ++ [r]) = (spec (final spec v answered) r.1).1 := by
  rw [final, List.foldl_append]
  rfl

variable {σ ε : Type*} {step : σ → ε → σ} {guard : σ → ε → Prop} {P : σ → Prop}
  {view : σ → ν} {log : σ → List (γ × α)}

/-- A step either changes nothing that the object knows of, or answers one call as the
object does. -/
def Answers (spec : ν → γ → ν × α) (view : σ → ν) (log : σ → List (γ × α)) (s s' : σ) : Prop :=
  (log s' = log s ∧ view s' = view s) ∨
    ∃ c, log s' = log s ++ [(c, (spec (view s) c).2)] ∧ view s' = (spec (view s) c).1

/-- When every step answers at most one call as the object does, so does the run. -/
theorem legal_run (hstep : ∀ s e, P s → guard s e →
      P (step s e) ∧ Answers spec view log s (step s e))
    {s : σ} {es : List ε} (hrun : Runs.Guarded step guard s es) (hinit : P s)
    (hlog : log s = []) :
    Legal spec (view s) (log (Runs.run step s es)) ∧
      view (Runs.run step s es) = final spec (view s) (log (Runs.run step s es)) := by
  have hkeep := hrun.invariant
    (P := fun s' => P s' ∧ Legal spec (view s) (log s') ∧
      view s' = final spec (view s) (log s')) (fun s' e hs' he => by
    obtain ⟨hP, hlegal, hview⟩ := hs'
    obtain ⟨hnext, hanswers⟩ := hstep s' e hP he
    rcases hanswers with ⟨hsame, hkept⟩ | ⟨c, hmore, hmoved⟩
    · rw [hsame, hkept]
      exact ⟨hnext, hlegal, hview⟩
    · rw [hmore, hmoved, final_snoc, hview]
      exact ⟨hnext, legal_snoc hlegal c, rfl⟩)
    ⟨hinit, by rw [hlog]; trivial, by rw [hlog]; rfl⟩
  exact hkeep.2

end

/-! ## Objects whose calls may fail -/

/-- The object after the calls, and its answers. -/
def perform (spec : ν → γ → ν × α) : ν → List γ → ν × List α
  | v, [] => (v, [])
  | v, c :: calls =>
      let (v', a) := spec v c
      let (v', answers) := perform spec v' calls
      (v', a :: answers)

/-- The same of an object whose calls may fail. -/
def attempt {σ : Type*} (step : σ → γ → Option (σ × α)) : σ → List γ → Option (σ × List α)
  | s, [] => some (s, [])
  | s, c :: calls => do
      let (s', a) ← step s c
      let (s', answers) ← attempt step s' calls
      some (s', a :: answers)

/-- When no call fails and each answers as the object does, no run fails, and it
answers as the object does. -/
theorem attempt_eq {σ : Type*} {spec : ν → γ → ν × α} {step : σ → γ → Option (σ × α)}
    {P : σ → Prop} {view : σ → ν}
    (hstep : ∀ s c, P s → ∃ s', step s c = some (s', (spec (view s) c).2) ∧ P s' ∧
      view s' = (spec (view s) c).1) {s : σ} (h : P s) (calls : List γ) :
    ∃ s', attempt step s calls = some (s', (perform spec (view s) calls).2) ∧ P s' ∧
      view s' = (perform spec (view s) calls).1 := by
  induction calls generalizing s with
  | nil => exact ⟨s, rfl, h, rfl⟩
  | cons c calls ih =>
      obtain ⟨s₁, hcall, h₁, hview₁⟩ := hstep s c h
      obtain ⟨s', hcalls, h', hview'⟩ := ih h₁
      rw [hview₁] at hcalls hview'
      refine ⟨s', ?_, h', hview'⟩
      rw [attempt, hcall, Option.bind_eq_bind, Option.bind_some]
      dsimp only
      rw [hcalls]
      rfl

end SequentialObject
