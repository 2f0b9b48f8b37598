import NivonaEmulator.Lib.Runs
import Mathlib.Data.Option.Basic

/-!
# Views repainted on change

A view is repainted from a reading only when the key of the reading differs from
the key that was seen last.  Along a run it shows the reading at which the key
last changed, which is as good as the last reading when a painting depends on the
key alone.
-/

namespace Redraw

variable {σ ε α κ ω : Type*}

/-- A step that repaints a view only for a new key.  Not every event brings a reading. -/
structure Cached (step : σ → ε → σ) (reads : σ → ε → Option α) (last : σ → κ) (view : σ → ω)
    (key : α → κ) (paint : α → ω) : Prop where
  idle : ∀ s e, reads s e = none → last (step s e) = last s ∧ view (step s e) = view s
  same : ∀ s e a, reads s e = some a → key a = last s →
    last (step s e) = last s ∧ view (step s e) = view s
  changed : ∀ s e a, reads s e = some a → key a ≠ last s →
    last (step s e) = key a ∧ view (step s e) = paint a

/-- The readings of a run, in order. -/
def readings (step : σ → ε → σ) (reads : σ → ε → Option α) : σ → List ε → List α
  | _, [] => []
  | s, e :: rest => (reads s e).toList ++ readings step reads (step s e) rest

/-- The reading at which the key last changed, from the key `k` on. -/
def lastChange [DecidableEq κ] (key : α → κ) : κ → List α → Option α
  | _, [] => none
  | k, a :: rest =>
      if key a = k then lastChange key k rest
      else (lastChange key (key a) rest).or (some a)

theorem readings_append (step : σ → ε → σ) (reads : σ → ε → Option α) (s : σ)
    (es es' : List ε) :
    readings step reads s (es ++ es') =
      readings step reads s es ++ readings step reads (Runs.run step s es) es' := by
  induction es generalizing s with
  | nil => rfl
  | cons e rest ih => simp [readings, ih, Runs.run]

section

variable [DecidableEq κ] {step : σ → ε → σ} {reads : σ → ε → Option α} {last : σ → κ}
  {view : σ → ω} {key : α → κ} {paint : α → ω}

/-- Along a run the view shows the reading of the last change. -/
theorem Cached.view_run (h : Cached step reads last view key paint) (s : σ) (es : List ε) :
    view (Runs.run step s es) =
      ((lastChange key (last s) (readings step reads s es)).map paint).getD (view s) := by
  induction es generalizing s with
  | nil => rfl
  | cons e rest ih =>
      rw [Runs.run_cons, ih, readings]
      rcases hreads : reads s e with _ | a
      · obtain ⟨hlast, hview⟩ := h.idle s e hreads
        rw [hlast, hview]
        rfl
      · by_cases hkey : key a = last s
        · obtain ⟨hlast, hview⟩ := h.same s e a hreads hkey
          simp [lastChange, hkey, hlast, hview]
        · obtain ⟨hlast, hview⟩ := h.changed s e a hreads hkey
          rw [hlast, hview]
          rcases hrest : lastChange key (key a) (readings step reads (step s e) rest) with _ | b
          · simp [lastChange, hkey, hrest]
          · simp [lastChange, hkey, hrest]

/-- The key last seen is that of the last change. -/
theorem lastChange_getLast? {k : κ} {as : List α} {a : α} (ha : as.getLast? = some a) :
    key a = ((lastChange key k as).map key).getD k := by
  induction as generalizing k with
  | nil => simp at ha
  | cons b rest ih =>
      rcases hrest : rest with _ | ⟨c, rest'⟩
      · subst hrest
        obtain rfl : b = a := by simpa using ha
        by_cases hkey : key b = k
        · simp [lastChange, hkey]
        · simp [lastChange, hkey]
      · have htail : rest.getLast? = some a := by
          rw [hrest] at ha ⊢
          simpa [List.getLast?_cons_cons] using ha
        rw [← hrest]
        by_cases hkey : key b = k
        · rw [lastChange, if_pos hkey]
          exact ih htail
        · rw [lastChange, if_neg hkey, ih (k := key b) htail]
          rcases lastChange key (key b) rest with _ | c
          · rfl
          · rfl

/-- A painting that depends on the key alone is that of the last reading, provided the
view of the start fits its key as well. -/
theorem Cached.view_run_last (h : Cached step reads last view key paint)
    (hpaint : ∀ a b, key a = key b → paint a = paint b) {s : σ} {es : List ε} {a : α}
    (hstart : key a = last s → view s = paint a)
    (ha : (readings step reads s es).getLast? = some a) :
    view (Runs.run step s es) = paint a := by
  rw [h.view_run]
  have hlast : key a =
      ((lastChange key (last s) (readings step reads s es)).map key).getD (last s) :=
    lastChange_getLast? ha
  rcases hchange : lastChange key (last s) (readings step reads s es) with _ | b
  · rw [hchange] at hlast
    exact hstart hlast
  · rw [hchange] at hlast
    exact hpaint b a hlast.symm

end

end Redraw
