import NivonaEmulator.UiHome
import Mathlib.Data.List.Induction

/-!
# Rows of the brew picker

A row of the brew picker carries a pointer into the static array `g_brew_ud`, which is
filled when the picker opens.  In every run a row points to the selector of the recipe
it names, on the family for which the picker was opened last.  A tap starts that
selector on the family there is by then.
-/

namespace Nivona

/-- The name of a selector on a family. -/
def recipeName (f : FamilyId) (selector : UInt8) : Option String :=
  ((namedRecipes f).find? fun e => e.1.selector == selector).map Prod.snd

/-- The rows are those of a family, each with the entry of its recipe. -/
def PickerOf (f : FamilyId) (ui : Ui) : Prop :=
  ui.brewRows.map Prod.fst = recipeNames f ∧
    ∀ name entry, (name, entry) ∈ ui.brewRows →
      ∃ recipe, (recipe, name) ∈ namedRecipes f ∧
        ui.brewUd.get entry =
          { selector := recipe.selector.toUInt16.toInt16, twoCups := false }

/-! ## Filling the array -/

section

variable {α β : Type*} {n : ℕ} (g : β → α)

theorem get_foldl_set_of_notMem (es : List (β × Fin n)) (v : Vector α n) {k : Fin n}
    (hk : k ∉ es.map Prod.snd) :
    (es.foldl (fun v e => v.set e.2 (g e.1)) v).get k = v.get k := by
  induction es generalizing v with
  | nil => rfl
  | cons e es ih =>
      obtain ⟨hne, hrest⟩ : k ≠ e.2 ∧ k ∉ es.map Prod.snd := by simpa using hk
      have hval : e.2.val ≠ k.val := fun h => hne (Fin.ext h.symm)
      rw [List.foldl_cons, ih _ hrest]
      exact Vector.getElem_set_ne _ _ hval

/-- Entries at different places are all found afterwards. -/
theorem get_foldl_set {es : List (β × Fin n)} (hnodup : (es.map Prod.snd).Nodup)
    (v : Vector α n) {b : β} {k : Fin n} (h : (b, k) ∈ es) :
    (es.foldl (fun v e => v.set e.2 (g e.1)) v).get k = g b := by
  induction es generalizing v with
  | nil => exact absurd h List.not_mem_nil
  | cons e es ih =>
      obtain ⟨hhead, htail⟩ := List.nodup_cons.mp hnodup
      rcases List.mem_cons.mp h with rfl | hmem
      · rw [List.foldl_cons, get_foldl_set_of_notMem g es _ hhead]
        exact Vector.getElem_set_self _
      · exact ih htail _ hmem

end

/-- A row for every recipe, and every row with its entry. -/
theorem pickerOf_build (ui : Ui) (f : FamilyId) : PickerOf f (screenBrewPickerBuild ui f) := by
  have hnames : (((namedRecipes f).zip (List.finRange 32)).map fun e => e.1.2) =
      recipeNames f := by
    revert f
    decide +kernel
  have hnodup : (((namedRecipes f).zip (List.finRange 32)).map Prod.snd).Nodup := by
    revert f
    decide +kernel
  refine ⟨?_, ?_⟩
  · simpa [screenBrewPickerBuild, Function.comp_def] using hnames
  · intro name entry hrow
    obtain ⟨⟨⟨recipe, text⟩, k⟩, hmem, heq⟩ := List.mem_map.mp hrow
    obtain ⟨rfl, rfl⟩ := Prod.mk.inj heq
    refine ⟨recipe, (List.of_mem_zip hmem).1, ?_⟩
    exact get_foldl_set (fun e : Recipe × String =>
      ({ selector := e.1.selector.toUInt16.toInt16, twoCups := false } : BrewUd)) hnodup _ hmem

/-! ## A run -/

/-- The family for which an event opens the picker. -/
def openReads (d : Display) : UiEvent → Option FamilyId
  | .tap .brewOpen =>
      if d.ui.active = .home then some d.machine.core.device.family else none
  | _ => none

/-- What is known of the rows once the picker has been opened. -/
def PickerOpened (ui : Ui) : Option FamilyId → Prop
  | none => ui.brewRows = []
  | some f => PickerOf f ui

theorem uiStep_picker_of_opens {d : Display} {e : UiEvent} {f : FamilyId}
    (h : openReads d e = some f) : PickerOf f (uiStep d e).ui := by
  cases e with
  | tap t =>
      cases t with
      | brewOpen =>
          simp only [openReads] at h
          split at h
          · rename_i hactive
            obtain rfl := Option.some.inj h
            have hstep : uiStep d (.tap .brewOpen) = onBrewOpen d := by
              rw [uiStep, hactive]
              rfl
            rw [hstep]
            exact pickerOf_build d.ui _
          · exact absurd h (by simp)
      | _ => exact absurd h (by simp [openReads])
  | _ => exact absurd h (by simp [openReads])

/-- Nothing else touches the rows or the array. -/
theorem uiStep_picker_of_none {d : Display} {e : UiEvent} (h : openReads d e = none) :
    (uiStep d e).ui.brewRows = d.ui.brewRows ∧ (uiStep d e).ui.brewUd = d.ui.brewUd := by
  cases e with
  | meanwhile e => exact ⟨rfl, rfl⟩
  | poll gaps =>
      simp only [uiStep, pollTimerCb]
      split
      · exact ⟨rfl, rfl⟩
      · exact ⟨rfl, rfl⟩
  | tap t =>
      simp only [uiStep]
      split
      · rename_i hscreen
        cases t with
        | brewOpen =>
            have hactive : d.ui.active = .home := hscreen.symm
            exact absurd h (by simp [openReads, hactive])
        | brewRecipe i =>
            simp only [tapStep, onBrewRecipe]
            split
            · exact ⟨rfl, rfl⟩
            · exact ⟨rfl, rfl⟩
        | _ => exact ⟨rfl, rfl⟩
      · exact ⟨rfl, rfl⟩

/-- In every run the rows are those of the family for which the picker was opened last. -/
theorem pickerOpened_run (d₀ : Display) (hempty : d₀.ui.brewRows = []) (events : List UiEvent) :
    PickerOpened (Runs.run uiStep d₀ events).ui
      (Redraw.readings uiStep openReads d₀ events).getLast? := by
  induction events using List.reverseRecOn with
  | nil => exact hempty
  | append_singleton events e ih =>
      rw [Runs.run_append, Redraw.readings_append]
      rcases hreads : openReads (Runs.run uiStep d₀ events) e with _ | f
      · obtain ⟨hrows, hud⟩ := uiStep_picker_of_none hreads
        simp only [Redraw.readings, hreads, Option.toList_none, List.append_nil]
        rcases hopened : (Redraw.readings uiStep openReads d₀ events).getLast? with _ | f
        · rw [hopened] at ih
          exact hrows.trans ih
        · rw [hopened] at ih
          simp only [PickerOpened, PickerOf, Runs.run_cons, Runs.run_nil, hrows, hud] at ih ⊢
          exact ih
      · simpa [Redraw.readings, hreads, PickerOpened] using uiStep_picker_of_opens hreads

/-- A brew that starts has the selector it was called with, and the recipe of the present
family for it. -/
theorem arg_of_brewStart {c : Core} {sel : UInt8} {twoCups : Bool}
    (h : (nivonaBrewStart c sel.toUInt16.toInt16 twoCups).2 = true) :
    (nivonaBrewStart c sel.toUInt16.toInt16 twoCups).1.brew.arg =
      { selector := sel, recipe := nivonaFamilyRecipeBySelector c.family sel
        twoCups := twoCups } := by
  have hsel : sel.toUInt16.toInt16.toUInt16.toUInt8 = sel := by simp
  rw [nivonaBrewStart, brewResolve, hsel] at h ⊢
  split at h
  · exact absurd h Bool.false_ne_true
  · rename_i hlock
    rw [if_neg hlock]
    rcases hrecipe : nivonaFamilyRecipeBySelector c.family sel with _ | recipe
    · rw [hrecipe] at h
      exact absurd h Bool.false_ne_true
    · simp only [hrecipe, Option.map_some] at h ⊢
      split at h
      · exact absurd h Bool.false_ne_true
      · rename_i hcycle
        rw [if_neg hcycle]
        split at h
        · exact absurd h Bool.false_ne_true
        · rename_i hprompt
          rw [if_neg hprompt]
          simp only [brewCommit] at h ⊢
          split at h
          · exact absurd h Bool.false_ne_true
          · rename_i hactive
            rw [if_neg hactive]
            split at h
            · rename_i hcreated
              rw [if_pos hcreated]
              rfl
            · exact absurd h Bool.false_ne_true

/-- No two recipes of a family have one selector. -/
theorem recipeBySelector_of_named {f : FamilyId} {recipe : Recipe} {name : String}
    (h : (recipe, name) ∈ namedRecipes f) :
    nivonaFamilyRecipeBySelector (familyRow f) recipe.selector = some recipe := by
  have hall : ∀ f, ∀ e ∈ namedRecipes f,
      nivonaFamilyRecipeBySelector (familyRow f) e.1.selector = some e.1 := by decide +kernel
  exact hall f (recipe, name) h

/-- In every run a tap on a row asks for the recipe it names, on the family for which the
picker was opened last.  A brew that starts is of that recipe when the family is still
the same; otherwise it is of whatever the selector means on the new one. -/
theorem brewRecipe_starts (env : Environment) (nvs : Nvs) (before : List Meanwhile)
    (start : StartGaps) (events : List UiEvent) {i : ℕ} {name : String} {entry : Fin 32}
    (hactive : (Runs.run uiStep (.boot env nvs before start) events).ui.active = .brew)
    (hrow : (Runs.run uiStep (.boot env nvs before start) events).ui.brewRows[i]? =
      some (name, entry)) :
    ∃ f recipe,
      (Redraw.readings uiStep openReads (.boot env nvs before start) events).getLast? = some f ∧
      (recipe, name) ∈ namedRecipes f ∧
      let c := (Runs.run uiStep (.boot env nvs before start) events).machine.core
      let r := nivonaBrewStart c recipe.selector.toUInt16.toInt16 false
      (uiStep (Runs.run uiStep (.boot env nvs before start) events)
        (.tap (.brewRecipe i))).machine.core = r.1 ∧
      (r.2 = true → r.1.brew.arg.selector = recipe.selector ∧ r.1.brew.arg.twoCups = false ∧
        r.1.brew.arg.recipe = nivonaFamilyRecipeBySelector c.family recipe.selector ∧
        (c.device.family = f → r.1.brew.arg.recipe = some recipe)) := by
  have hopened := pickerOpened_run (.boot env nvs before start) rfl events
  have hmem := List.mem_of_getElem? hrow
  generalize Runs.run uiStep (.boot env nvs before start) events = d at *
  rcases hlast : (Redraw.readings uiStep openReads (.boot env nvs before start) events).getLast?
    with _ | f
  · rw [hlast] at hopened
    have hempty : d.ui.brewRows = [] := hopened
    rw [hempty] at hmem
    exact absurd hmem List.not_mem_nil
  · rw [hlast] at hopened
    obtain ⟨recipe, hnamed, hentry⟩ := hopened.2 name entry hmem
    refine ⟨f, recipe, rfl, hnamed, ?_, ?_⟩
    · have hstep : uiStep d (.tap (.brewRecipe i)) = onBrewRecipe d i := by
        rw [uiStep, hactive]
        rfl
      rw [hstep, onBrewRecipe, hrow]
      simp only [hentry, Display.load, Display.onCore, machineOp_core]
      rfl
    · intro hstarted
      have harg := arg_of_brewStart hstarted
      refine ⟨by rw [harg], by rw [harg], by rw [harg], ?_⟩
      intro hfamily
      rw [harg]
      subst hfamily
      exact recipeBySelector_of_named hnamed

/-- The picker is opened on a 759, and the console switches to a 680 before the tap. -/
def switchedUnderPicker : List UiEvent :=
  [.tap .confirm, .tap .familyOpen, .tap (.familySelect ⟨1, by decide⟩ []), .tap .brewOpen,
    .meanwhile (.event (.op (.familyCli "600")) rfl)]

/-- The row says Cream and the machine brews what the 680 calls Coffee. -/
theorem brewRecipe_starts_switched :
    let d₀ := Display.boot .benign .empty [] ⟨[], [], []⟩
    let d := Runs.run uiStep d₀ switchedUnderPicker
    (∃ f recipe, (Redraw.readings uiStep openReads d₀ switchedUnderPicker).getLast? = some f ∧
      (recipe, "Cream") ∈ namedRecipes f ∧
      let r := nivonaBrewStart d.machine.core recipe.selector.toUInt16.toInt16 false
      (uiStep d (.tap (.brewRecipe 1))).machine.core = r.1 ∧
      (r.2 = true → r.1.brew.arg.selector = recipe.selector ∧ r.1.brew.arg.twoCups = false ∧
        r.1.brew.arg.recipe =
          nivonaFamilyRecipeBySelector d.machine.core.family recipe.selector ∧
        (d.machine.core.device.family = f → r.1.brew.arg.recipe = some recipe))) ∧
      (uiStep d (.tap (.brewRecipe 1))).machine.core.brew.active = true ∧
      (uiStep d (.tap (.brewRecipe 1))).machine.core.brew.arg.selector = 1 ∧
      recipeName 0 1 = some "Coffee" :=
  have hrow : (Runs.run uiStep (.boot .benign .empty [] ⟨[], [], []⟩)
      switchedUnderPicker).ui.brewRows[1]? = some ("Cream", 1) := by decide +kernel
  ⟨brewRecipe_starts .benign .empty [] ⟨[], [], []⟩ switchedUnderPicker (i := 1) rfl hrow,
    by decide +kernel⟩

end Nivona
