import NivonaEmulator.StoreMirror
import NivonaEmulator.System

/-!
# A reboot gives the persisted state back

Registers, consumable levels, parts and family are kept twice, in memory and in
flash.  Every operation updates both, so what a reboot loads is what was there
before.
-/

namespace Nivona

/-! ## Operations -/

/-- The operations on the persisted state. -/
inductive DeviceOp
  | setNum (id : Int16) (value : Int32)
  | batchBegin
  | batchSetNum (id : Int16) (value : Int32)
  | batchEnd
  | eraseNum (id : Int16)
  | setAlpha (id : Int16) (data : List UInt8)
  | consumableSet (c : Consumable) (pct : UInt8)
  | consumableAdjust (c : Consumable) (delta : ℤ)
  | consumeWater (pct : UInt8)
  | consumeBeans (pct : UInt8)
  | fillTray (pct : UInt8)
  | partSet (p : Part) (present : Bool)
  | consumablesReset
  | familySet (key : String)
  | reboot (it : NvsIterator)

def deviceStep (d : Device) : DeviceOp → Device
  | .setNum id value => d.onStorage fun s => nivonaStoreSetNum s id value
  | .batchBegin => d.onStorage nivonaStoreBatchBegin
  | .batchSetNum id value => d.onStorage fun s => nivonaStoreBatchSetNum s id value
  | .batchEnd => d.onStorage nivonaStoreBatchEnd
  | .eraseNum id => d.onStorage fun s => nivonaStoreEraseNum s id
  | .setAlpha id data => d.onStorage fun s => nivonaStoreSetAlpha s id data
  | .consumableSet c pct => nivonaConsumableSet d c pct
  | .consumableAdjust c delta => nivonaConsumableAdjust d c delta
  | .consumeWater pct => nivonaConsumablesConsumeWater d pct
  | .consumeBeans pct => nivonaConsumablesConsumeBeans d pct
  | .fillTray pct => nivonaConsumablesFillTray d pct
  | .partSet p present => nivonaPartSet d p present
  | .consumablesReset => nivonaConsumablesReset d
  | .familySet key => nivonaFamilySet d key
  | .reboot it => Device.boot it d.nvs

/-- The numerical table has room for what is written, seeds included, and
batched writes come inside a batch. -/
def DeviceFits (d : Device) : DeviceOp → Prop
  | .setNum id _ => ¬d.num.FullFor id
  | .batchSetNum id _ => d.batchOpen = true ∧ ¬d.num.FullFor id
  | .reboot it => SeedsFit it (nivonaStatsCurrent d.family) d.nvs
  | _ => True

instance (d : Device) : (op : DeviceOp) → Decidable (DeviceFits d op)
  | .setNum id _ => inferInstanceAs (Decidable (¬d.num.FullFor id))
  | .batchSetNum id _ => inferInstanceAs (Decidable (d.batchOpen = true ∧ ¬d.num.FullFor id))
  | .reboot it => inferInstanceAs (Decidable (SeedsFit it (nivonaStatsCurrent d.family) d.nvs))
  | .batchBegin | .batchEnd | .eraseNum _ | .setAlpha .. | .consumableSet ..
  | .consumableAdjust .. | .consumeWater _ | .consumeBeans _ | .fillTray _ | .partSet ..
  | .consumablesReset | .familySet _ => inferInstanceAs (Decidable True)

/-! ## The invariant -/

/-- Flash holds what is in memory, and levels are percentages. -/
structure Persisted (d : Device) : Prop where
  num : d.toStorage.NumMirrored
  tanks : d.nvs.get .consum KEY_TANKS = some (.blob (tanksBlob d.levels))
  parts : d.nvs.get .consum KEY_PARTS = some (.blob (partsBlob d.parts))
  levels : ∀ c, (d.levels c).toNat ≤ 100
  family : restoreOnce d.nvs = d.family

theorem restoreOnce_congr {nvs nvs' : Nvs}
    (h : nvs'.get .fam KEY_FAM_CUR = nvs.get .fam KEY_FAM_CUR) :
    restoreOnce nvs' = restoreOnce nvs := by
  simp only [restoreOnce, Nvs.getStr, h]

/-- An operation of the register store that keeps the registers mirrored. -/
theorem Persisted.onStorage {d : Device} (h : Persisted d) (f : Storage → Storage)
    (hnum : (f d.toStorage).NumMirrored)
    (hconsum : ∀ key, (f d.toStorage).nvs.get .consum key = d.nvs.get .consum key)
    (hfam : ∀ key, (f d.toStorage).nvs.get .fam key = d.nvs.get .fam key) :
    Persisted (d.onStorage f) where
  num := hnum
  tanks := (hconsum _).trans h.tanks
  parts := (hconsum _).trans h.parts
  levels := h.levels
  family := (restoreOnce_congr (hfam _)).trans h.family

/-- Levels and parts are written to flash whenever they change. -/
theorem persisted_persist {d : Device} (hnum : d.toStorage.NumMirrored)
    (hlevels : ∀ c, (d.levels c).toNat ≤ 100) (hfamily : restoreOnce d.nvs = d.family) :
    Persisted (persist d) where
  num := Mirrors.congr hnum
    (fun key => by
      rw [persist, Nvs.get_set_of_ns_ne _ (by decide), Nvs.get_set_of_ns_ne _ (by decide)])
    fun _ => rfl
  tanks := by
    rw [persist, Nvs.get_set_of_key_ne _ (by decide), Nvs.get_set_self]
  parts := by
    rw [persist, Nvs.get_set_self]
  levels := hlevels
  family := (restoreOnce_congr (by
    rw [persist, Nvs.get_set_of_ns_ne _ (by decide), Nvs.get_set_of_ns_ne _ (by decide)])).trans
      hfamily

theorem Persisted.setLevel {d : Device} (h : Persisted d) (c : Consumable) (v : ℤ) :
    Persisted (persist { d with levels := Function.update d.levels c (clamp8 v) }) := by
  refine persisted_persist (d := { d with levels := Function.update d.levels c (clamp8 v) })
    h.num ?_ h.family
  intro c'
  by_cases hc : c' = c
  · subst hc
    simpa using clamp8_le v
  · simpa [Function.update_of_ne hc] using h.levels c'

theorem persisted_consumablesReset {d : Device} (hnum : d.toStorage.NumMirrored)
    (hfamily : restoreOnce d.nvs = d.family) : Persisted (nivonaConsumablesReset d) := by
  rw [nivonaConsumablesReset]
  exact persisted_persist hnum (fun c => by cases c <;> dsimp only <;> decide) hfamily

/-- Every family key fits the buffer it is restored into. -/
theorem utf8ByteSize_familyKey (f : FamilyId) : (familyRow f).key.utf8ByteSize + 1 ≤ 15 := by
  revert f
  decide

theorem Persisted.familySet {d : Device} (h : Persisted d) (key : String) :
    Persisted (nivonaFamilySet d key) := by
  rw [nivonaFamilySet]
  split
  · exact h
  · rename_i f hfind
    have hlen : key.utf8ByteSize + 1 ≤ 15 := by
      rw [← key_of_nivonaFamilyFind hfind]
      exact utf8ByteSize_familyKey f
    exact
      { num := Mirrors.congr h.num (fun _ => Nvs.get_set_of_ns_ne _ (by decide) _) fun _ => rfl
        tanks := (Nvs.get_set_of_ns_ne _ (by decide) _).trans h.tanks
        parts := (Nvs.get_set_of_ns_ne _ (by decide) _).trans h.parts
        levels := h.levels
        family := by
          simp only [restoreOnce, Nvs.getStr, Nvs.get_set_self, hlen, if_true, hfind,
            Option.getD_some] }

/-! ## Booting -/

/-- The store initialisation leaves the other namespaces alone. -/
theorem get_nivonaStoreInit_of_ne (it : NvsIterator) (stats : Stats) (nvs : Nvs)
    {ns : NvsNamespace} (hnum : ns ≠ .num) (halpha : ns ≠ .alpha) (key : NvsKey) :
    (nivonaStoreInit it stats nvs).nvs.get ns key = nvs.get ns key := by
  have hprofiles : (seedProfiles (nvsLoadAll it (Storage.blank nvs))).nvs.get ns key =
      nvs.get ns key := by
    refine Runs.invariant (P := fun s : Storage => s.nvs.get ns key = nvs.get ns key)
      (fun s i hs => (Nvs.get_set_of_ns_ne _ halpha _).trans hs) ?_ _
    rw [nvsLoadAll_blank]
  rw [nivonaStoreInit_eq]
  refine Runs.invariant (P := fun s : Storage => s.nvs.get ns key = nvs.get ns key)
    ?_ hprofiles _
  intro s e hs
  rcases seedNum_cases s e.1 e.2 with ⟨he, -⟩ | ⟨he, -⟩
  · rw [seedNumStep, he, hs]
  · rw [seedNumStep, he]
    exact (Nvs.get_set_of_ns_ne _ hnum _).trans hs

/-- What is restored from flash is what was in memory. -/
theorem Persisted.boot_eq {d : Device} (h : Persisted d) (it : NvsIterator) :
    Device.boot it d.nvs =
      { toStorage := nivonaStoreInit it (nivonaStatsCurrent d.family) d.nvs
        levels := d.levels, parts := d.parts, family := d.family } := by
  have htanks : d.nvs.getBlob .consum KEY_TANKS 4 = some (tanksBlob d.levels) :=
    Nvs.getBlob_eq_some.mpr ⟨h.tanks, by simp [tanksBlob]⟩
  have hparts : d.nvs.getBlob .consum KEY_PARTS 3 = some (partsBlob d.parts) :=
    Nvs.getBlob_eq_some.mpr ⟨h.parts, by simp [partsBlob]⟩
  simp only [Device.boot, nivonaConsumablesInit, restore, Device.powerOn, htanks, hparts,
    Option.bind_some, tanksOfBlob_tanksBlob, partsOfBlob_partsBlob, h.family, Device.onStorage]

theorem Persisted.boot {d : Device} (h : Persisted d) {it : NvsIterator}
    (hfit : SeedsFit it (nivonaStatsCurrent d.family) d.nvs) :
    Persisted (Device.boot it d.nvs) := by
  have hget {ns : NvsNamespace} (hnum : ns ≠ .num) (halpha : ns ≠ .alpha) (key : NvsKey) :=
    get_nivonaStoreInit_of_ne it (nivonaStatsCurrent d.family) d.nvs hnum halpha key
  rw [h.boot_eq]
  exact
    { num := h.num.nivonaStoreInit hfit
      tanks := (hget (by decide) (by decide) _).trans h.tanks
      parts := (hget (by decide) (by decide) _).trans h.parts
      levels := h.levels
      family := (restoreOnce_congr (hget (by decide) (by decide) _)).trans h.family }

/-- After the first boot everything is in flash. -/
theorem persisted_firstBoot (it : NvsIterator) : Persisted (Device.boot it Nvs.empty) := by
  have hfirst : Persisted (nivonaConsumablesReset (Device.powerOn Nvs.empty)) :=
    persisted_consumablesReset mirrors_empty rfl
  have hboot : Device.boot it Nvs.empty =
      (nivonaConsumablesReset (Device.powerOn Nvs.empty)).onStorage fun s =>
        nivonaStoreInit it (nivonaStatsCurrent (restoreOnce Nvs.empty)) s.nvs := rfl
  rw [hboot]
  refine hfirst.onStorage _ ?_ (get_nivonaStoreInit_of_ne it _ _ (by decide) (by decide))
    (get_nivonaStoreInit_of_ne it _ _ (by decide) (by decide))
  exact hfirst.num.nivonaStoreInit (seedsFit_of_num_none it _ rfl)

/-! ## Runs -/

/-- One operation keeps memory and flash in step. -/
theorem persisted_step (d : Device) (op : DeviceOp) (h : Persisted d) (hfits : DeviceFits d op) :
    Persisted (deviceStep d op) := by
  have hconsum {s : Storage} (v : NvsValue) (key' key : NvsKey) :
      (s.nvs.set .num key' v).get .consum key = s.nvs.get .consum key :=
    Nvs.get_set_of_ns_ne _ (by decide) _
  have hfam {s : Storage} (v : NvsValue) (key' key : NvsKey) :
      (s.nvs.set .num key' v).get .fam key = s.nvs.get .fam key :=
    Nvs.get_set_of_ns_ne _ (by decide) _
  cases op with
  | setNum id value =>
      exact h.onStorage (fun s => nivonaStoreSetNum s id value) (h.num.setNum hfits value)
        (hconsum _ _) (hfam _ _)
  | batchBegin =>
      exact h.onStorage nivonaStoreBatchBegin h.num.batchBegin
        (d.nvs.get_openReadwrite .num .consum) (d.nvs.get_openReadwrite .num .fam)
  | batchSetNum id value =>
      have hset : nivonaStoreBatchSetNum d.toStorage id value =
          nivonaStoreSetNum d.toStorage id value := if_pos hfits.1
      refine h.onStorage (fun s => nivonaStoreBatchSetNum s id value)
        (h.num.batchSetNum hfits.1 hfits.2 value) ?_ ?_
      · rw [hset]
        exact hconsum _ _
      · rw [hset]
        exact hfam _ _
  | batchEnd =>
      exact h.onStorage nivonaStoreBatchEnd (Mirrors.congr h.num (fun _ => rfl) fun _ => rfl)
        (fun _ => rfl) fun _ => rfl
  | eraseNum id =>
      exact h.onStorage (fun s => nivonaStoreEraseNum s id) (h.num.eraseNum id)
        (fun _ => Nvs.get_eraseKey_of_ns_ne _ (by decide))
        fun _ => Nvs.get_eraseKey_of_ns_ne _ (by decide)
  | setAlpha id data =>
      exact h.onStorage (fun s => nivonaStoreSetAlpha s id data) (h.num.setAlpha id data)
        (fun _ => Nvs.get_set_of_ns_ne _ (by decide) _)
        fun _ => Nvs.get_set_of_ns_ne _ (by decide) _
  | consumableSet c pct => exact h.setLevel c _
  | consumableAdjust c delta => exact h.setLevel c _
  | consumeWater pct => exact h.setLevel .water _
  | consumeBeans pct => exact h.setLevel .beans _
  | fillTray pct => exact h.setLevel .tray _
  | partSet p present => exact persisted_persist h.num h.levels h.family
  | consumablesReset => exact persisted_consumablesReset h.num h.family
  | familySet key => exact h.familySet key
  | reboot it => exact h.boot hfits

/-- The restart of the machine is a reboot of its device. -/
theorem reboot_device (it : NvsIterator) (c : Core) :
    (reboot it c).device = deviceStep c.device (.reboot it) :=
  appMain_device it c.device.nvs c.taskResults

/-- A reboot after any run since the first boot in which the numerical table
has room gives back the registers, the levels, the parts and the family; absent
registers stay absent unless they are seeded. -/
theorem reboot_transparent (first it : NvsIterator) (ops : List DeviceOp)
    (hrun : Runs.Guarded deviceStep DeviceFits (Device.boot first Nvs.empty)
      (ops ++ [.reboot it])) :
    let d := Runs.run deviceStep (Device.boot first Nvs.empty) ops
    let d' := Device.boot it d.nvs
    (∀ id, nivonaStoreHasNum d.toStorage id = true →
      nivonaStoreHasNum d'.toStorage id = true ∧
        nivonaStoreGetNum d'.toStorage id = nivonaStoreGetNum d.toStorage id) ∧
    (∀ id, nivonaStoreHasNum d.toStorage id = false →
      id ∉ (numSeeds (nivonaStatsCurrent d.family)).map Prod.fst →
        nivonaStoreHasNum d'.toStorage id = false) ∧
    (∀ c, d'.levels c = d.levels c ∧ (d.levels c).toNat ≤ 100) ∧
    d'.parts = d.parts ∧ d'.family = d.family := by
  have h : Persisted (Runs.run deviceStep (Device.boot first Nvs.empty) ops) :=
    hrun.prefix_of.invariant persisted_step (persisted_firstBoot first)
  intro d d'
  have hboot : d' = _ := h.boot_eq it
  have hnums := h.num.get_nivonaStoreInit it (nivonaStatsCurrent d.family)
  rw [hboot]
  refine ⟨?_, ?_, fun c => ⟨rfl, h.levels c⟩, rfl, rfl⟩
  · intro id hhas
    obtain ⟨v, hv⟩ := Option.isSome_iff_exists.mp hhas
    have hv' := (hnums id).1 v hv
    simp only [nivonaStoreHasNum, nivonaStoreGetNum]
    exact ⟨by rw [hv', Option.isSome_some], by rw [hv', hv]⟩
  · intro id habsent hid
    have hnone : d.num.get id = none := by simpa [nivonaStoreHasNum] using habsent
    simp only [nivonaStoreHasNum]
    rw [(hnums id).2 hnone hid, Option.isSome_none]

/-- A negative id, a batched counter, an erased seed, a lowered tank and another
family, before and after a reboot. -/
theorem reboot_transparent_mixed :
    let ops : List DeviceOp := [.setNum (-5) 7, .batchBegin, .batchSetNum 213 1, .batchEnd,
      .eraseNum 600, .consumeWater 30, .partSet .trays false, .familySet "700"]
    let d := Runs.run deviceStep (Device.boot NvsIterator.storageOrder Nvs.empty) ops
    let d' := Device.boot NvsIterator.storageOrder d.nvs
    (∀ id, nivonaStoreHasNum d.toStorage id = true →
      nivonaStoreHasNum d'.toStorage id = true ∧
        nivonaStoreGetNum d'.toStorage id = nivonaStoreGetNum d.toStorage id) ∧
    (∀ id, nivonaStoreHasNum d.toStorage id = false →
      id ∉ (numSeeds (nivonaStatsCurrent d.family)).map Prod.fst →
        nivonaStoreHasNum d'.toStorage id = false) ∧
    (∀ c, d'.levels c = d.levels c ∧ (d.levels c).toNat ≤ 100) ∧
    d'.parts = d.parts ∧ d'.family = d.family :=
  reboot_transparent NvsIterator.storageOrder NvsIterator.storageOrder
    [.setNum (-5) 7, .batchBegin, .batchSetNum 213 1, .batchEnd,
      .eraseNum 600, .consumeWater 30, .partSet .trays false, .familySet "700"]
    (by decide +kernel)

end Nivona
