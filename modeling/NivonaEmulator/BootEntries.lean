import NivonaEmulator.AlphaReboot
import NivonaEmulator.HardPrompt
import NivonaEmulator.Lib.Lockstep
import NivonaEmulator.RebootTransparency

/-!
# What a boot reads

A boot depends on the entries in flash alone: a namespace that was never
created and an empty one bring up the same state.  The alphanumeric registers
and the family depend on the entries of their own namespaces.
-/

namespace Nivona

/-! ## Flash with the same entries -/

/-- A namespace that was never created counts as an empty one. -/
def Nvs.SameEntries (nvs nvs' : Nvs) : Prop :=
  ∀ ns, nvs.openReadwrite ns = nvs'.openReadwrite ns

theorem Nvs.openReadwrite_set (nvs : Nvs) (ns ns' : NvsNamespace) (key : NvsKey) (v : NvsValue) :
    (nvs.set ns key v).openReadwrite ns' =
      if ns' = ns then (nvs.openReadwrite ns).insert key v else nvs.openReadwrite ns' := by
  by_cases hns : ns' = ns
  · subst hns
    rw [if_pos rfl, Nvs.openReadwrite, Nvs.set, Function.update_self, Option.getD_some]
  · rw [if_neg hns, Nvs.openReadwrite, Nvs.set, Function.update_of_ne hns, Nvs.openReadwrite]

/-- The iterator sees the entries alone. -/
theorem Nvs.entryFind_eq (nvs : Nvs) (it : NvsIterator) (ns : NvsNamespace)
    (ofType : NvsValue → Bool) :
    nvs.entryFind it ns ofType =
      it.visit (((nvs.openReadwrite ns).entries.filter fun e => ofType e.2).map Sigma.fst) := by
  rw [Nvs.entryFind, Nvs.openReadwrite]
  cases nvs ns with
  | none => exact (it.perm []).eq_nil.symm
  | some entries => rfl

section

variable {nvs nvs' : Nvs}

theorem Nvs.SameEntries.set (h : nvs.SameEntries nvs') (ns : NvsNamespace) (key : NvsKey)
    (v : NvsValue) : (nvs.set ns key v).SameEntries (nvs'.set ns key v) := by
  intro ns'
  rw [Nvs.openReadwrite_set, Nvs.openReadwrite_set, h ns, h ns']

theorem Nvs.SameEntries.get (h : nvs.SameEntries nvs') : nvs.get = nvs'.get := by
  funext ns key
  rw [Nvs.get_eq_lookup, Nvs.get_eq_lookup, h ns]

theorem Nvs.SameEntries.entryFind (h : nvs.SameEntries nvs') (it : NvsIterator)
    (ns : NvsNamespace) (ofType : NvsValue → Bool) :
    nvs.entryFind it ns ofType = nvs'.entryFind it ns ofType := by
  rw [Nvs.entryFind_eq, Nvs.entryFind_eq, h ns]

theorem Nvs.SameEntries.getI32 (h : nvs.SameEntries nvs') : nvs.getI32 = nvs'.getI32 := by
  funext ns key
  rw [Nvs.getI32, Nvs.getI32, h.get]

theorem Nvs.SameEntries.getBlob (h : nvs.SameEntries nvs') : nvs.getBlob = nvs'.getBlob := by
  funext ns key size
  rw [Nvs.getBlob, Nvs.getBlob, h.get]

/-! ## Booting on the same entries -/

/-- The registers agree, in memory and in flash. -/
structure Storage.Same (s s' : Storage) : Prop where
  nvs : s.nvs.SameEntries s'.nvs
  num : s.num = s'.num
  alpha : s.alpha = s'.alpha

theorem Storage.Same.setNum {s s' : Storage} (h : s.Same s') (id : Int16) (v : Int32) :
    (nivonaStoreSetNum s id v).Same (nivonaStoreSetNum s' id v) where
  nvs := h.nvs.set _ _ _
  num := congrArg (fun t => t.put id v) h.num
  alpha := h.alpha

theorem Storage.Same.setAlpha {s s' : Storage} (h : s.Same s') (id : Int16) (data : List UInt8) :
    (nivonaStoreSetAlpha s id data).Same (nivonaStoreSetAlpha s' id data) where
  nvs := h.nvs.set _ _ _
  num := h.num
  alpha := congrArg (fun t => t.put id ((data.take NIVONA_ALPHA_MAX).take NIVONA_ALPHA_MAX)) h.alpha

theorem Storage.Same.seedNum {s s' : Storage} (h : s.Same s') (id : Int16) (v : Int32) :
    (seedNum s id v).Same (seedNum s' id v) := by
  have hhas : nivonaStoreHasNum s id = nivonaStoreHasNum s' id := by
    rw [nivonaStoreHasNum, nivonaStoreHasNum, h.num]
  rw [Nivona.seedNum, Nivona.seedNum, hhas]
  split
  · exact h
  · exact h.setNum id v

/-- The alphanumeric registers are loaded from their own namespace. -/
theorem alpha_nvsLoadAll (h : nvs.openReadwrite .alpha = nvs'.openReadwrite .alpha)
    (it : NvsIterator) :
    (nvsLoadAll it (Storage.blank nvs)).alpha = (nvsLoadAll it (Storage.blank nvs')).alpha := by
  have hread : readAlpha nvs = readAlpha nvs' := by
    funext key
    rw [readAlpha, readAlpha, Nvs.getBlob, Nvs.getBlob, Nvs.get_eq_lookup, Nvs.get_eq_lookup, h]
  rw [nvsLoadAll_blank, nvsLoadAll_blank]
  dsimp only
  rw [hread, Nvs.entryFind_eq, Nvs.entryFind_eq, h]

theorem Storage.Same.nvsLoadAll (h : nvs.SameEntries nvs') (it : NvsIterator) :
    (nvsLoadAll it (Storage.blank nvs)).Same (nvsLoadAll it (Storage.blank nvs')) := by
  rw [nvsLoadAll_blank, nvsLoadAll_blank]
  exact
    { nvs := h
      num := by
        dsimp only
        rw [h.getI32, h.entryFind]
      alpha := by
        have halpha := alpha_nvsLoadAll (h .alpha) it
        rwa [nvsLoadAll_blank, nvsLoadAll_blank] at halpha }

theorem Storage.Same.nivonaStoreInit (h : nvs.SameEntries nvs') (it : NvsIterator)
    (stats : Stats) : (nivonaStoreInit it stats nvs).Same (nivonaStoreInit it stats nvs') := by
  have hprofiles : (seedProfiles (Nivona.nvsLoadAll it (Storage.blank nvs))).Same
      (seedProfiles (Nivona.nvsLoadAll it (Storage.blank nvs'))) := by
    rw [seedProfiles, seedProfiles]
    exact Lockstep.run_related (fun s t i hs => hs.setAlpha _ _) (Storage.Same.nvsLoadAll h it) _
  rw [nivonaStoreInit_eq, nivonaStoreInit_eq]
  exact Lockstep.run_related (fun s t e hs => hs.seedNum e.1 e.2) hprofiles _

/-- So are they seeded, whatever else is in flash. -/
theorem alpha_nivonaStoreInit (h : nvs.openReadwrite .alpha = nvs'.openReadwrite .alpha)
    (it : NvsIterator) (stats : Stats) :
    (nivonaStoreInit it stats nvs).alpha = (nivonaStoreInit it stats nvs').alpha := by
  have hprofiles : (seedProfiles (nvsLoadAll it (Storage.blank nvs))).alpha =
      (seedProfiles (nvsLoadAll it (Storage.blank nvs'))).alpha := by
    rw [seedProfiles, seedProfiles]
    refine Lockstep.run_related (R := fun s t : Storage => s.alpha = t.alpha) ?_
      (alpha_nvsLoadAll h it) _
    intro s t i hs
    rw [nivonaStoreSetAlpha, nivonaStoreSetAlpha, setAlphaMem, setAlphaMem, hs]
  rw [nivonaStoreInit_eq, nivonaStoreInit_eq, (seedNums_alpha _ _).1, (seedNums_alpha _ _).1,
    hprofiles]

/-- The persisted state agrees. -/
structure Device.Same (d d' : Device) : Prop where
  storage : d.toStorage.Same d'.toStorage
  levels : d.levels = d'.levels
  parts : d.parts = d'.parts
  family : d.family = d'.family

theorem Device.Same.powerOn (h : nvs.SameEntries nvs') :
    (Device.powerOn nvs).Same (Device.powerOn nvs') where
  storage := ⟨h, rfl, rfl⟩
  levels := rfl
  parts := rfl
  family := restoreOnce_congr (by rw [h.get])

theorem Device.Same.reset {d d' : Device} (h : d.Same d') :
    (nivonaConsumablesReset d).Same (nivonaConsumablesReset d') where
  storage := ⟨(h.storage.nvs.set _ _ _).set _ _ _, h.storage.num, h.storage.alpha⟩
  levels := rfl
  parts := rfl
  family := h.family

theorem Device.Same.consumablesInit {d d' : Device} (h : d.Same d') :
    (nivonaConsumablesInit d).Same (nivonaConsumablesInit d') := by
  rw [nivonaConsumablesInit, nivonaConsumablesInit, restore, restore, h.storage.nvs.getBlob]
  cases (d'.nvs.getBlob .consum KEY_TANKS 4).bind tanksOfBlob with
  | none => exact h.reset
  | some levels =>
      cases (d'.nvs.getBlob .consum KEY_PARTS 3).bind partsOfBlob with
      | none => exact ⟨h.storage, rfl, rfl, h.family⟩
      | some parts => exact ⟨h.storage, rfl, rfl, h.family⟩

/-- A boot gives the same state on the same entries. -/
theorem Device.Same.boot (h : nvs.SameEntries nvs') (it : NvsIterator) :
    (Device.boot it nvs).Same (Device.boot it nvs') := by
  have hinit := (Device.Same.powerOn h).consumablesInit
  have hstore := Storage.Same.nivonaStoreInit hinit.storage.nvs it
    (nivonaStatsCurrent (nivonaConsumablesInit (Device.powerOn nvs)).family)
  rw [Device.boot, Device.boot, ← hinit.family]
  dsimp only [Device.onStorage]
  exact ⟨hstore, hinit.levels, hinit.parts, hinit.family⟩

/-- Alphanumeric registers and family come from their own two namespaces. -/
theorem alpha_family_boot (halpha : nvs.openReadwrite .alpha = nvs'.openReadwrite .alpha)
    (hfam : nvs.openReadwrite .fam = nvs'.openReadwrite .fam) (it : NvsIterator) :
    (Device.boot it nvs).alpha = (Device.boot it nvs').alpha ∧
      (Device.boot it nvs).family = (Device.boot it nvs').family := by
  have hrestore : restoreOnce nvs = restoreOnce nvs' := by
    apply restoreOnce_congr
    rw [Nvs.get_eq_lookup, Nvs.get_eq_lookup, hfam]
  have hfamily (nvs : Nvs) : (nivonaConsumablesInit (Device.powerOn nvs)).family =
      restoreOnce nvs := (nivonaConsumablesInit_frame _).1
  have hflash (nvs : Nvs) :
      (nivonaConsumablesInit (Device.powerOn nvs)).nvs.openReadwrite .alpha =
        nvs.openReadwrite .alpha := by
    rw [Nvs.openReadwrite, nivonaConsumablesInit_nvs _ (by decide)]
    rfl
  constructor
  · simp only [Device.boot, Device.onStorage, hfamily, hrestore]
    apply alpha_nivonaStoreInit
    rw [hflash, hflash, halpha]
  · simp only [Device.boot, Device.onStorage, hfamily, hrestore]

/-- What a boot is asked for: registers, levels, parts, family and status. -/
structure Core.SameState (c c' : Core) : Prop where
  num : ∀ id, c.device.num.get id = c'.device.num.get id
  alpha : ∀ id, c.device.alpha.get id = c'.device.alpha.get id
  levels : c.device.levels = c'.device.levels
  parts : c.device.parts = c'.device.parts
  family : c.device.family = c'.device.family
  status : c.status = c'.status

/-- The prompt of a device, or else the cold-start flush. -/
def coldStartPrompt (d : Device) : UInt8 :=
  let prompt := evaluate d (nivonaMaintFamilyMask (nivonaFamilyCurrent d).key)
  if prompt = MANIP_NONE then MANIP_FLUSH_REQUIRED else prompt

theorem nivonaMaintColdStart_status (c : Core) :
    (nivonaMaintColdStart c).status =
      { c.status with manipulation := coldStartPrompt c.device } := by
  have hreeval : (nivonaMaintReevaluate c).status.manipulation =
      evaluate c.device (nivonaMaintFamilyMask (nivonaFamilyCurrent c.device).key) := rfl
  simp only [nivonaMaintColdStart, coldStartPrompt, hreeval]
  split <;> rfl

/-- The status `app_main` leaves. -/
theorem appMain_status (it : NvsIterator) (nvs : Nvs) (taskResults : ℕ → Bool) :
    (appMain it nvs taskResults).status =
      { Status.ready (nivonaFamilyCurrent (Device.boot it nvs)).processReady with
        manipulation := coldStartPrompt (Device.boot it nvs) } := by
  have hfamily : (Device.boot it nvs).family = restoreOnce nvs :=
    (nivonaConsumablesInit_frame (Device.powerOn nvs)).1
  have hstatus : (appMain it nvs taskResults).status =
      { Status.ready (familyRow (restoreOnce nvs)).processReady with
        manipulation := coldStartPrompt (Device.boot it nvs) } :=
    nivonaMaintColdStart_status _
  rw [hstatus, nivonaFamilyCurrent, hfamily]

/-- On the same entries `app_main` comes up in the same state. -/
theorem sameState_appMain (h : nvs.SameEntries nvs') (it : NvsIterator)
    (taskResults taskResults' : ℕ → Bool) :
    (appMain it nvs taskResults).SameState (appMain it nvs' taskResults') := by
  have hboot := Device.Same.boot h it
  have hprompt : coldStartPrompt (Device.boot it nvs) = coldStartPrompt (Device.boot it nvs') := by
    rw [coldStartPrompt, coldStartPrompt, evaluate_congr hboot.levels.symm hboot.parts.symm,
      nivonaFamilyCurrent, nivonaFamilyCurrent, hboot.family]
  have hdevice := appMain_device it nvs taskResults
  have hdevice' := appMain_device it nvs' taskResults'
  constructor
  · intro id
    rw [hdevice, hdevice', hboot.storage.num]
  · intro id
    rw [hdevice, hdevice', hboot.storage.alpha]
  · rw [hdevice, hdevice', hboot.levels]
  · rw [hdevice, hdevice', hboot.parts]
  · rw [hdevice, hdevice', hboot.family]
  · rw [appMain_status, appMain_status, hprompt, nivonaFamilyCurrent, nivonaFamilyCurrent,
      hboot.family]

end

end Nivona
