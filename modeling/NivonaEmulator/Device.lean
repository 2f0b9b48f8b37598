import NivonaEmulator.Lib.BigEndian
import NivonaEmulator.Store

/-!
# Consumables, parts and the current family

What the emulator keeps in memory and in flash: the registers, the four
consumable levels, the three parts and the family selection.
-/

namespace Nivona

/-- `NIVONA_CONSUM_WATER`, `_BEANS`, `_TRAY`, `_FILTER`; levels in percent. -/
inductive Consumable
  | water | beans | tray | filter
  deriving DecidableEq, Repr

/-- `NIVONA_PART_BREW_UNIT`, `_TRAYS`, `_POWDER_LID`. -/
inductive Part
  | brewUnit | trays | powderLid
  deriving DecidableEq, Repr

/-- The persisted state in memory, with the flash that backs it. -/
structure Device extends Storage where
  levels : Consumable → UInt8
  parts : Part → Bool
  family : FamilyId

/-! ## Blobs -/

def KEY_TANKS : NvsKey := ['t', 'a', 'n', 'k', 's']
def KEY_PARTS : NvsKey := ['p', 'a', 'r', 't', 's']
def KEY_FAM_CUR : NvsKey := ['c', 'u', 'r', 'r', 'e', 'n', 't']

/-- The blob of the four levels. -/
def tanksBlob (levels : Consumable → UInt8) : List UInt8 :=
  [levels .water, levels .beans, levels .tray, levels .filter]

/-- The blob of the three parts, one byte each. -/
def partsBlob (parts : Part → Bool) : List UInt8 :=
  [if parts .brewUnit then 1 else 0, if parts .trays then 1 else 0,
   if parts .powderLid then 1 else 0]

/-- Levels of a blob of the right size. -/
def tanksOfBlob : List UInt8 → Option (Consumable → UInt8)
  | [w, b, t, f] => some fun
    | .water => w
    | .beans => b
    | .tray => t
    | .filter => f
  | _ => none

/-- Parts of a blob of the right size. -/
def partsOfBlob : List UInt8 → Option (Part → Bool)
  | [u, t, l] => some fun
    | .brewUnit => u != 0
    | .trays => t != 0
    | .powderLid => l != 0
  | _ => none

@[simp] theorem tanksOfBlob_tanksBlob (levels : Consumable → UInt8) :
    tanksOfBlob (tanksBlob levels) = some levels := by
  rw [tanksBlob, tanksOfBlob, Option.some.injEq]
  funext c
  cases c <;> rfl

@[simp] theorem partsOfBlob_partsBlob (parts : Part → Bool) :
    partsOfBlob (partsBlob parts) = some parts := by
  rw [partsBlob, partsOfBlob, Option.some.injEq]
  funext p
  cases p
  · cases parts .brewUnit <;> rfl
  · cases parts .trays <;> rfl
  · cases parts .powderLid <;> rfl

/-! ## Consumables -/

def clamp8 (v : ℤ) : UInt8 :=
  if v < 0 then 0 else if v > 100 then 100 else UInt8.ofInt v

/-- A clamped level is a percentage. -/
theorem clamp8_le (v : ℤ) : (clamp8 v).toNat ≤ 100 := by
  rw [clamp8]
  split
  · decide
  · split
    · decide
    · have h := BigEndian.toNat_ofInt v
      omega

/-- Write all levels and parts to flash. -/
def persist (d : Device) : Device :=
  { d with
    nvs := (d.nvs.set .consum KEY_TANKS (.blob (tanksBlob d.levels))).set
      .consum KEY_PARTS (.blob (partsBlob d.parts)) }

/-- Load the levels, and the parts when their blob is there; `none` when there
is nothing to restore. -/
def restore (d : Device) : Option Device :=
  match (d.nvs.getBlob .consum KEY_TANKS 4).bind tanksOfBlob with
  | none => none
  | some levels =>
      match (d.nvs.getBlob .consum KEY_PARTS 3).bind partsOfBlob with
      | some parts => some { d with levels := levels, parts := parts }
      | none => some { d with levels := levels, parts := fun _ => true }

def nivonaConsumablesReset (d : Device) : Device :=
  persist { d with
    levels := fun
      | .water => 100
      | .beans => 100
      | .tray => 0
      | .filter => 100
    parts := fun _ => true }

def nivonaConsumablesInit (d : Device) : Device :=
  match restore d with
  | some d => d
  | none => nivonaConsumablesReset d

theorem restore_eq_some {d d' : Device} (h : restore d = some d') :
    ∃ levels parts, d' = { d with levels := levels, parts := parts } := by
  rw [restore] at h
  split at h
  · exact absurd h (by simp)
  · split at h <;>
    · obtain rfl := Option.some.inj h
      exact ⟨_, _, rfl⟩

/-- The start writes to its own namespace alone. -/
theorem nivonaConsumablesInit_nvs (d : Device) {ns : NvsNamespace} (hns : ns ≠ .consum) :
    (nivonaConsumablesInit d).nvs ns = d.nvs ns := by
  rw [nivonaConsumablesInit]
  rcases hrestore : restore d with _ | d'
  · simp only [nivonaConsumablesReset, persist, Nvs.set, Function.update_of_ne hns]
  · obtain ⟨levels, parts, rfl⟩ := restore_eq_some hrestore
    rfl

/-- The start leaves the family and the stored registers alone. -/
theorem nivonaConsumablesInit_frame (d : Device) :
    (nivonaConsumablesInit d).family = d.family ∧
      (nivonaConsumablesInit d).nvs .num = d.nvs .num := by
  refine ⟨?_, nivonaConsumablesInit_nvs d (by decide)⟩
  rw [nivonaConsumablesInit]
  rcases hrestore : restore d with _ | d'
  · rfl
  · obtain ⟨levels, parts, rfl⟩ := restore_eq_some hrestore
    rfl

def nivonaConsumableGet (d : Device) (c : Consumable) : UInt8 := d.levels c

def nivonaPartGet (d : Device) (p : Part) : Bool := d.parts p

def nivonaConsumableSet (d : Device) (c : Consumable) (pct : UInt8) : Device :=
  persist { d with levels := Function.update d.levels c (clamp8 pct.toNat) }

def nivonaPartSet (d : Device) (p : Part) (present : Bool) : Device :=
  persist { d with parts := Function.update d.parts p present }

def nivonaConsumableAdjust (d : Device) (c : Consumable) (delta : ℤ) : Device :=
  persist { d with
    levels := Function.update d.levels c (clamp8 ((d.levels c).toNat + delta)) }

def nivonaConsumablesConsumeWater (d : Device) (pct : UInt8) : Device :=
  nivonaConsumableAdjust d .water (-pct.toNat)

def nivonaConsumablesConsumeBeans (d : Device) (pct : UInt8) : Device :=
  nivonaConsumableAdjust d .beans (-pct.toNat)

def nivonaConsumablesFillTray (d : Device) (pct : UInt8) : Device :=
  nivonaConsumableAdjust d .tray pct.toNat

/-! ## Current family -/

/-- The family stored in flash, else the default. -/
def restoreOnce (nvs : Nvs) : FamilyId :=
  let default := (nivonaFamilyFind "8000").getD 0
  match nvs.getStr .fam KEY_FAM_CUR 15 with
  | some key => (nivonaFamilyFind key).getD default
  | none => default

/-- Select and persist a family; an unknown key changes nothing. -/
def nivonaFamilySet (d : Device) (key : String) : Device :=
  match nivonaFamilyFind key with
  | none => d
  | some f =>
      { d with
        family := f
        nvs := d.nvs.set .fam KEY_FAM_CUR (.str key) }

def nivonaFamilyCurrent (d : Device) : Family := familyRow d.family

/-! ## Registers -/

/-- An operation of the register store, on the whole device. -/
def Device.onStorage (d : Device) (f : Storage → Storage) : Device :=
  { d with toStorage := f d.toStorage }

/-! ## Power-on -/

/-- Memory at power-on, with the family of the flash restored on first use. -/
def Device.powerOn (nvs : Nvs) : Device :=
  { nvs := nvs, num := SlotTable.empty, alpha := SlotTable.empty, batchOpen := false
    levels := fun _ => 0, parts := fun _ => false, family := restoreOnce nvs }

/-- Consumables first, then the register store, as `app_main` calls them. -/
def Device.boot (it : NvsIterator) (nvs : Nvs) : Device :=
  let d := nivonaConsumablesInit (Device.powerOn nvs)
  d.onStorage fun s => nivonaStoreInit it (nivonaStatsCurrent d.family) s.nvs

end Nivona
