import NivonaEmulator.Lib.Runs
import Mathlib.Logic.Function.Basic

/-!
# Publishing a view of shared memory

Tasks change a memory under a lock and afterwards publish a value they work out
from it, looking at the memory several times while other tasks run.  A value
can be out of date by the time it is published.  The published value is right
once every task is idle in exactly the runs in which a value that is out of date
is published only while another task still has to publish.  Two disciplines
guarantee that: no two tasks look at the same time, or nobody changes the memory
while another task looks.
-/

namespace Publish

variable {ι σ ρ β γ : Type*}

/-- A value worked out in several looks at the memory.  `value s r` is what comes
out at point `r` when the memory stays as it is. -/
structure Reader (σ ρ β : Type*) where
  start : ρ
  look : σ → ρ → ρ
  result : ρ → Option β
  value : σ → ρ → β
  value_look : ∀ s r, value s (look s r) = value s r
  value_result : ∀ s r b, result r = some b → value s r = b

/-- The value of a memory that nobody changes meanwhile. -/
def Reader.view (R : Reader σ ρ β) (s : σ) : β :=
  R.value s R.start

/-- Copying the `n` entries of a list, one at a time. -/
def Reader.copy (n : ℕ) (view : σ → List γ) (hlength : ∀ s, (view s).length = n) :
    Reader σ (List γ) (List γ) where
  start := []
  look s copied := copied ++ ((view s).drop copied.length).take 1
  result copied := if copied.length = n then some copied else none
  value s copied := copied ++ (view s).drop copied.length
  value_look s copied := by
    rw [List.append_assoc]
    congr 1
    rcases hrest : (view s).drop copied.length with _ | ⟨b, rest⟩
    · have hle : (view s).length ≤ copied.length := List.drop_eq_nil_iff.mp hrest
      simpa using hle
    · have htail : (view s).drop (copied.length + 1) = rest := by
        rw [← List.drop_drop, hrest, List.drop_one, List.tail_cons]
      simpa using htail
  value_result s copied b hresult := by
    have hfull : copied.length = n ∧ copied = b := by simpa using hresult
    have hdone : (view s).drop copied.length = [] := by simp [hlength, hfull.1]
    rw [hdone, List.append_nil, hfull.2]

/-- Where a task stands. -/
inductive Stage (ρ : Type*)
  | idle
  /-- has changed something and has to publish -/
  | due
  | reading (r : ρ)
  deriving DecidableEq

/-- The memory, the published value, and the tasks. -/
structure State (ι σ ρ β : Type*) where
  memory : σ
  shown : β
  stage : ι → Stage ρ

inductive Step (ι σ β : Type*)
  | change (i : ι) (f : σ → σ)
  /-- puts a value up that has nothing to do with the memory -/
  | overwrite (i : ι) (b : β)
  | start (i : ι)
  | look (i : ι)
  | publish (i : ι)

section

variable [DecidableEq ι]

/-- A task changes and overwrites only between its publications; a step that
does not fit the stage of its task does nothing. -/
def step (R : Reader σ ρ β) (s : State ι σ ρ β) : Step ι σ β → State ι σ ρ β
  | .change i f =>
      match s.stage i with
      | .reading _ => s
      | _ => { s with memory := f s.memory, stage := Function.update s.stage i .due }
  | .overwrite i b =>
      match s.stage i with
      | .reading _ => s
      | _ => { s with shown := b, stage := Function.update s.stage i .due }
  | .start i =>
      match s.stage i with
      | .reading _ => s
      | _ => { s with stage := Function.update s.stage i (.reading R.start) }
  | .look i =>
      match s.stage i with
      | .reading r =>
          { s with stage := Function.update s.stage i (.reading (R.look s.memory r)) }
      | _ => s
  | .publish i =>
      match s.stage i with
      | .reading r =>
          match R.result r with
          | some b => { s with shown := b, stage := Function.update s.stage i .idle }
          | none => s
      | _ => s

end

/-! ## When the published value is right -/

/-- The value a task is working out is still the one of the memory. -/
def Fresh (R : Reader σ ρ β) (s : State ι σ ρ β) (r : ρ) : Prop :=
  R.value s.memory r = R.view s.memory

/-- The task has a right value still to publish. -/
def Pending (R : Reader σ ρ β) (s : State ι σ ρ β) (i : ι) : Prop :=
  match s.stage i with
  | .idle => False
  | .due => True
  | .reading r => Fresh R s r

/-- The published value is right, or a right one is still to come. -/
def Settled (R : Reader σ ρ β) (s : State ι σ ρ β) : Prop :=
  s.shown = R.view s.memory ∨ ∃ i, Pending R s i

/-- A value that is out of date is published only while another task has a right
one still to publish. -/
def InTime (R : Reader σ ρ β) (s : State ι σ ρ β) : Step ι σ β → Prop
  | .publish i =>
      match s.stage i with
      | .reading r =>
          (R.result r).isSome → Fresh R s r ∨ ∃ j, j ≠ i ∧ Pending R s j
      | _ => True
  | _ => True

/-- Every task is between two publications. -/
def Quiet (s : State ι σ ρ β) : Prop :=
  ∀ i, s.stage i = .idle

/-- A task starts to look only when no task is looking. -/
def OneAtATime (s : State ι σ ρ β) : Step ι σ β → Prop
  | .start i =>
      match s.stage i with
      | .reading _ => True
      | _ => ∀ j r, s.stage j ≠ .reading r
  | _ => True

/-- At most one task looks, and while its value is out of date another is due. -/
structure Exclusive (R : Reader σ ρ β) (s : State ι σ ρ β) : Prop where
  unique : ∀ i j r r', s.stage i = .reading r → s.stage j = .reading r' → i = j
  covered : ∀ i r, s.stage i = .reading r → Fresh R s r ∨ ∃ j, s.stage j = .due

section

variable {R : Reader σ ρ β} {s : State ι σ ρ β} {i j : ι} {r : ρ}

theorem pending_of_due (h : s.stage i = .due) : Pending R s i := by
  simp [Pending, h]

theorem pending_reading (h : s.stage i = .reading r) : Pending R s i ↔ Fresh R s r := by
  simp [Pending, h]

theorem not_pending_of_idle (h : s.stage i = .idle) : ¬Pending R s i := by
  simp [Pending, h]

/-- Pending depends on the memory and on the stage of the task alone. -/
theorem pending_congr {t : State ι σ ρ β} (hmem : t.memory = s.memory)
    (hstage : t.stage i = s.stage i) : Pending R t i ↔ Pending R s i := by
  simp only [Pending, Fresh, hmem, hstage]

/-- A copy is fresh when it is how the list begins now. -/
theorem fresh_copy_iff {n : ℕ} {view : σ → List γ} {hlength : ∀ s, (view s).length = n}
    {s : State ι σ (List γ) (List γ)} {copied : List γ} :
    Fresh (Reader.copy n view hlength) s copied ↔ copied <+: view s.memory := by
  constructor
  · intro h
    exact ⟨(view s.memory).drop copied.length, h⟩
  · rintro ⟨rest, hrest⟩
    simp [Fresh, Reader.view, Reader.copy, ← hrest]

/-- With nobody working, what is published is right. -/
theorem Settled.shown_of_quiet (h : Settled R s) (hquiet : Quiet s) :
    s.shown = R.view s.memory := by
  rcases h with hright | ⟨i, hi⟩
  · exact hright
  · exact absurd hi (not_pending_of_idle (hquiet i))

/-- Idle tasks exclude each other. -/
theorem Exclusive.of_quiet (hquiet : Quiet s) : Exclusive R s := by
  constructor
  · intro i j r r' hi hj
    simp [hquiet i] at hi
  · intro i r hi
    simp [hquiet i] at hi

variable [DecidableEq ι]

/-- A step that only touches one task, which stays pending if it was, keeps the
state settled. -/
theorem Settled.of_stage {t : State ι σ ρ β} (h : Settled R s) (hmem : t.memory = s.memory)
    (hshown : t.shown = s.shown) (hothers : ∀ j, j ≠ i → t.stage j = s.stage j)
    (hself : Pending R s i → Pending R t i) : Settled R t := by
  rcases h with hright | ⟨j, hj⟩
  · left
    rw [hshown, hmem, hright]
  · right
    by_cases hji : j = i
    · subst hji
      exact ⟨j, hself hj⟩
    · exact ⟨j, (pending_congr hmem (hothers j hji)).mpr hj⟩

/-- Publishing keeps the state settled exactly when it is in time. -/
theorem settled_publish_iff (hstage : s.stage i = .reading r) {b : β}
    (hresult : R.result r = some b) :
    Settled R { s with shown := b, stage := Function.update s.stage i .idle } ↔
      Fresh R s r ∨ ∃ j, j ≠ i ∧ Pending R s j := by
  have hvalue : R.value s.memory r = b := R.value_result s.memory r b hresult
  have hothers : ∀ j, j ≠ i →
      (Pending R { s with shown := b, stage := Function.update s.stage i .idle } j ↔
        Pending R s j) := by
    intro j hj
    exact pending_congr rfl (Function.update_of_ne hj _ _)
  constructor
  · rintro (hright | ⟨j, hj⟩)
    · left
      exact hvalue.trans hright
    · right
      have hji : j ≠ i := by
        rintro rfl
        exact not_pending_of_idle (Function.update_self _ _ _) hj
      exact ⟨j, hji, (hothers j hji).mp hj⟩
  · rintro (hfresh | ⟨j, hji, hj⟩)
    · left
      exact hvalue.symm.trans hfresh
    · right
      exact ⟨j, (hothers j hji).mpr hj⟩

/-- What a step leaves of a settled state. -/
theorem settled_step_iff (hsettled : Settled R s) (a : Step ι σ β) :
    Settled R (step R s a) ↔ InTime R s a := by
  cases a with
  | change i f =>
      refine iff_of_true ?_ trivial
      rcases hstage : s.stage i with _ | _ | r
      · exact .inr ⟨i, by simp [step, hstage, Pending]⟩
      · exact .inr ⟨i, by simp [step, hstage, Pending]⟩
      · simpa [step, hstage] using hsettled
  | overwrite i b =>
      refine iff_of_true ?_ trivial
      rcases hstage : s.stage i with _ | _ | r
      · exact .inr ⟨i, by simp [step, hstage, Pending]⟩
      · exact .inr ⟨i, by simp [step, hstage, Pending]⟩
      · simpa [step, hstage] using hsettled
  | start i =>
      refine iff_of_true ?_ trivial
      have hstart : Settled R
          { s with stage := Function.update s.stage i (.reading R.start) } := by
        refine hsettled.of_stage rfl rfl (fun j hj => Function.update_of_ne hj _ _) ?_
        intro _
        exact (pending_reading (Function.update_self _ _ _)).mpr rfl
      rcases hstage : s.stage i with _ | _ | r
      · simpa [step, hstage] using hstart
      · simpa [step, hstage] using hstart
      · simpa [step, hstage] using hsettled
  | look i =>
      refine iff_of_true ?_ trivial
      rcases hstage : s.stage i with _ | _ | r
      · simpa [step, hstage] using hsettled
      · simpa [step, hstage] using hsettled
      · have hlook : Settled R
            { s with stage := Function.update s.stage i (.reading (R.look s.memory r)) } := by
          refine hsettled.of_stage rfl rfl (fun j hj => Function.update_of_ne hj _ _) ?_
          intro hpending
          have hfresh := (pending_reading hstage).mp hpending
          refine (pending_reading (Function.update_self _ _ _)).mpr ?_
          exact (R.value_look s.memory r).trans hfresh
        simpa [step, hstage] using hlook
  | publish i =>
      rcases hstage : s.stage i with _ | _ | r
      · simpa [step, InTime, hstage] using hsettled
      · simpa [step, InTime, hstage] using hsettled
      · rcases hresult : R.result r with _ | b
        · simpa [step, InTime, hstage, hresult] using hsettled
        · simpa [step, InTime, hstage, hresult] using settled_publish_iff hstage hresult

/-- What at most one step leaves of a settled state. -/
theorem settled_run_iff (hsettled : Settled R s) {actions : List (Step ι σ β)}
    (hlength : actions.length ≤ 1) :
    Settled R (Runs.run (step R) s actions) ↔ Runs.Guarded (step R) (InTime R) s actions := by
  match actions with
  | [] => exact iff_of_true hsettled trivial
  | [a] => exact (settled_step_iff hsettled a).trans (and_iff_left trivial).symm

/-! ## One task looks at a time -/

/-- A task that comes to be due keeps the others covered. -/
theorem Exclusive.of_due {t : State ι σ ρ β} (h : Exclusive R s)
    (hstage : t.stage = Function.update s.stage i .due) : Exclusive R t := by
  have hreading : ∀ j r, t.stage j = .reading r → s.stage j = .reading r := by
    intro j r hj
    by_cases hji : j = i
    · simp [hstage, hji] at hj
    · simpa [hstage, hji] using hj
  constructor
  · intro j k r r' hj hk
    exact h.unique j k r r' (hreading j r hj) (hreading k r' hk)
  · intro j r hj
    exact .inr ⟨i, by simp [hstage]⟩

omit [DecidableEq ι] in
theorem Exclusive.inTime (h : Exclusive R s) (a : Step ι σ β) : InTime R s a := by
  cases a with
  | publish i =>
      rcases hstage : s.stage i with _ | _ | r
      · simp [InTime, hstage]
      · simp [InTime, hstage]
      · simp only [InTime, hstage]
        intro _
        rcases h.covered i r hstage with hfresh | ⟨j, hj⟩
        · exact .inl hfresh
        · refine .inr ⟨j, ?_, pending_of_due hj⟩
          rintro rfl
          simp [hstage] at hj
  | _ => trivial

theorem Exclusive.step (h : Exclusive R s) (a : Step ι σ β) (hguard : OneAtATime s a) :
    Exclusive R (step R s a) := by
  cases a with
  | change i f =>
      rcases hstage : s.stage i with _ | _ | r
      · simpa [Publish.step, hstage] using h.of_due rfl
      · simpa [Publish.step, hstage] using h.of_due rfl
      · simpa [Publish.step, hstage] using h
  | overwrite i b =>
      rcases hstage : s.stage i with _ | _ | r
      · simpa [Publish.step, hstage] using h.of_due rfl
      · simpa [Publish.step, hstage] using h.of_due rfl
      · simpa [Publish.step, hstage] using h
  | start i =>
      have hstart (hnone : ∀ j r, s.stage j ≠ .reading r) : Exclusive R
          { s with stage := Function.update s.stage i (.reading R.start) } := by
        have honly : ∀ j r, Function.update s.stage i (.reading R.start) j = .reading r →
            j = i ∧ r = R.start := by
          intro j r hj
          by_cases hji : j = i
          · subst hji
            simpa [eq_comm] using hj
          · rw [Function.update_of_ne hji] at hj
            exact absurd hj (hnone j r)
        constructor
        · intro j k r r' hj hk
          exact (honly j r hj).1.trans (honly k r' hk).1.symm
        · intro j r hj
          obtain ⟨-, rfl⟩ := honly j r hj
          exact .inl rfl
      rcases hstage : s.stage i with _ | _ | r
      · simpa [Publish.step, hstage] using hstart (by simpa [OneAtATime, hstage] using hguard)
      · simpa [Publish.step, hstage] using hstart (by simpa [OneAtATime, hstage] using hguard)
      · simpa [Publish.step, hstage] using h
  | look i =>
      rcases hstage : s.stage i with _ | _ | r
      · simpa [Publish.step, hstage] using h
      · simpa [Publish.step, hstage] using h
      · have hreading : ∀ j r', Function.update s.stage i (.reading (R.look s.memory r)) j =
            .reading r' → ∃ q, s.stage j = .reading q := by
          intro j r' hj
          by_cases hji : j = i
          · exact ⟨r, hji ▸ hstage⟩
          · exact ⟨r', by rwa [Function.update_of_ne hji] at hj⟩
        have hlook : Exclusive R
            { s with stage := Function.update s.stage i (.reading (R.look s.memory r)) } := by
          constructor
          · intro j k r' r₂ hj hk
            obtain ⟨q, hq⟩ := hreading j r' hj
            obtain ⟨q', hq'⟩ := hreading k r₂ hk
            exact h.unique j k q q' hq hq'
          · intro j r' hj
            obtain ⟨q, hq⟩ := hreading j r' hj
            obtain rfl := h.unique j i q r hq hstage
            have hr' : r' = R.look s.memory r := by simpa [eq_comm] using hj
            subst hr'
            rcases h.covered j r hstage with hfresh | ⟨k, hk⟩
            · exact .inl ((R.value_look s.memory r).trans hfresh)
            · refine .inr ⟨k, ?_⟩
              have hkj : k ≠ j := by
                rintro rfl
                simp [hstage] at hk
              simpa [Function.update_of_ne hkj] using hk
        simpa [Publish.step, hstage] using hlook
  | publish i =>
      rcases hstage : s.stage i with _ | _ | r
      · simpa [Publish.step, hstage] using h
      · simpa [Publish.step, hstage] using h
      · rcases hresult : R.result r with _ | b
        · simpa [Publish.step, hstage, hresult] using h
        · have hnone : ∀ j r', Function.update s.stage i .idle j ≠ .reading r' := by
            intro j r' hj
            by_cases hji : j = i
            · simp [hji] at hj
            · rw [Function.update_of_ne hji] at hj
              exact hji (h.unique j i r' r hj hstage)
          have hpublish : Exclusive R
              { s with shown := b, stage := Function.update s.stage i .idle } :=
            ⟨fun j _ r' _ hj _ => absurd hj (hnone j r'), fun j r' hj => absurd hj (hnone j r')⟩
          simpa [Publish.step, hstage, hresult] using hpublish

/-- With one task looking at a time a settled state stays settled. -/
theorem settled_of_oneAtATime (hsettled : Settled R s) (hexcl : Exclusive R s)
    {actions : List (Step ι σ β)} (hrun : Runs.Guarded (step R) OneAtATime s actions) :
    Settled R (Runs.run (step R) s actions) ∧ Exclusive R (Runs.run (step R) s actions) := by
  refine hrun.invariant (P := fun t => Settled R t ∧ Exclusive R t) ?_ ⟨hsettled, hexcl⟩
  rintro t a ⟨ht, hex⟩ hguard
  exact ⟨(settled_step_iff ht a).mpr (hex.inTime a), hex.step a hguard⟩

end

end Publish
