import NivonaEmulator.Core

/-!
# Maintenance prompts

The prompt byte of the status is a cached value: `evaluate` computes it from
parts and tanks, and `nivonaMaintReevaluate` stores it.
-/

namespace Nivona

def NIVONA_THR_WATER_LOW : UInt8 := 10
def NIVONA_THR_TRAY_FULL : UInt8 := 90

/-- Bit of a manipulation code in the family allowlist. -/
def manipBit (m : UInt8) : UInt32 := 1 <<< m.toUInt32

def maskCommon : UInt32 :=
  manipBit MANIP_NONE ||| manipBit MANIP_BU_REMOVED ||| manipBit MANIP_TRAYS_MISSING |||
    manipBit MANIP_EMPTY_TRAYS ||| manipBit MANIP_FILL_WATER |||
    manipBit MANIP_FLUSH_REQUIRED

/-- The manipulations a family can raise. -/
def nivonaMaintFamilyMask (key : String) : UInt32 :=
  match nivonaFamilyFind key with
  | none => maskCommon
  | some f =>
      let m := maskCommon
      let m := if (familyRow f).hasMilkSystem then m ||| manipBit MANIP_MOVE_CUP else m
      if (familyRow f).hasPowderLid then
        m ||| (manipBit MANIP_CLOSE_POWDER_LID ||| manipBit MANIP_FILL_POWDER)
      else m

/-- The most urgent hard prompt: parts first, then water, then the tray. -/
def evaluate (d : Device) (allowedMask : UInt32) : UInt8 :=
  if !nivonaPartGet d .brewUnit && allowedMask &&& manipBit MANIP_BU_REMOVED != 0 then
    MANIP_BU_REMOVED
  else if !nivonaPartGet d .trays && allowedMask &&& manipBit MANIP_TRAYS_MISSING != 0 then
    MANIP_TRAYS_MISSING
  else if !nivonaPartGet d .powderLid &&
      allowedMask &&& manipBit MANIP_CLOSE_POWDER_LID != 0 then
    MANIP_CLOSE_POWDER_LID
  else if nivonaConsumableGet d .water < NIVONA_THR_WATER_LOW &&
      allowedMask &&& manipBit MANIP_FILL_WATER != 0 then
    MANIP_FILL_WATER
  else if nivonaConsumableGet d .tray > NIVONA_THR_TRAY_FULL &&
      allowedMask &&& manipBit MANIP_EMPTY_TRAYS != 0 then
    MANIP_EMPTY_TRAYS
  else MANIP_NONE

/-- The prompt that parts, tanks and current family call for. -/
def Core.hardPrompt (c : Core) : UInt8 :=
  evaluate c.device (nivonaMaintFamilyMask c.family.key)

def nivonaMaintReevaluate (c : Core) : Core :=
  nivonaFsmSetManipulation c c.hardPrompt

/-- Prompts the user clears without touching hardware. -/
def nivonaMaintCurrentIsSoft (c : Core) : Bool :=
  c.status.manipulation == MANIP_FLUSH_REQUIRED || c.status.manipulation == MANIP_MOVE_CUP

/-- HY: clear a soft prompt, re-check a hard one. -/
def nivonaMaintHandleConfirm (c : Core) : Core × Bool :=
  if c.status.manipulation = MANIP_NONE then (c, true)
  else if nivonaMaintCurrentIsSoft c then
    (nivonaMaintReevaluate (nivonaFsmSetManipulation c MANIP_NONE), true)
  else
    let c := nivonaMaintReevaluate c
    (c, c.status.manipulation == MANIP_NONE)

/-- Raise the cold-start flush unless something hard is pending. -/
def nivonaMaintColdStart (c : Core) : Core :=
  let c := nivonaMaintReevaluate c
  if c.status.manipulation = MANIP_NONE then
    nivonaFsmSetManipulation c MANIP_FLUSH_REQUIRED
  else c

/-! ## The family masks -/

/-- Every family can raise the prompts of missing parts, water and tray. -/
theorem familyMask_common (f : FamilyId) :
    nivonaMaintFamilyMask (familyRow f).key &&& manipBit MANIP_BU_REMOVED ≠ 0 ∧
    nivonaMaintFamilyMask (familyRow f).key &&& manipBit MANIP_TRAYS_MISSING ≠ 0 ∧
    nivonaMaintFamilyMask (familyRow f).key &&& manipBit MANIP_FILL_WATER ≠ 0 ∧
    nivonaMaintFamilyMask (familyRow f).key &&& manipBit MANIP_EMPTY_TRAYS ≠ 0 := by
  revert f
  decide

/-- The lid prompt belongs to the families with a powder lid. -/
theorem familyMask_powderLid (f : FamilyId) :
    nivonaMaintFamilyMask (familyRow f).key &&& manipBit MANIP_CLOSE_POWDER_LID ≠ 0 ↔
      (familyRow f).hasPowderLid = true := by
  revert f
  decide

/-- When `evaluate` calls for no prompt at all. -/
theorem evaluate_eq_none_iff (d : Device) (f : FamilyId) :
    evaluate d (nivonaMaintFamilyMask (familyRow f).key) = MANIP_NONE ↔
      d.parts .brewUnit = true ∧ d.parts .trays = true ∧
      ((familyRow f).hasPowderLid = true → d.parts .powderLid = true) ∧
      NIVONA_THR_WATER_LOW ≤ d.levels .water ∧ d.levels .tray ≤ NIVONA_THR_TRAY_FULL := by
  obtain ⟨hbu, htr, hwa, hem⟩ := familyMask_common f
  rw [← familyMask_powderLid, ← UInt8.not_lt, ← UInt8.not_lt]
  simp only [evaluate, nivonaPartGet, nivonaConsumableGet, bne_iff_ne, Bool.and_eq_true,
    Bool.not_eq_true', hbu, htr, hwa, hem, ne_eq, not_false_eq_true,
    and_true]
  cases d.parts .brewUnit
  · simp [show MANIP_BU_REMOVED ≠ MANIP_NONE by decide]
  cases d.parts .trays
  · simp [show MANIP_TRAYS_MISSING ≠ MANIP_NONE by decide]
  by_cases hlid : d.parts .powderLid = false ∧
      ¬nivonaMaintFamilyMask (familyRow f).key &&& manipBit MANIP_CLOSE_POWDER_LID = 0
  · simp [hlid.1, hlid.2, show MANIP_CLOSE_POWDER_LID ≠ MANIP_NONE by decide]
  have hlid' : ¬nivonaMaintFamilyMask (familyRow f).key &&&
      manipBit MANIP_CLOSE_POWDER_LID = 0 → d.parts .powderLid = true := by
    simpa [and_comm] using hlid
  by_cases hwater : d.levels .water < NIVONA_THR_WATER_LOW
  · simp [hlid, hwater, show MANIP_FILL_WATER ≠ MANIP_NONE by decide]
  by_cases htray : NIVONA_THR_TRAY_FULL < d.levels .tray
  · simp [hlid, hwater, htray, show MANIP_EMPTY_TRAYS ≠ MANIP_NONE by decide]
  · simp only [hlid, hwater, htray, if_false]
    simpa using hlid'

end Nivona
