import NivonaEmulator.StoreMirror

/-!
# Alphanumeric registers across a reboot

Loading gives every alphanumeric register back, and then the four profile names
are written over whatever was loaded.  A register keeps its bytes exactly when
it is not a profile name, or holds its default name anyway.
-/

namespace Nivona

/-! ## Writing the profile names -/

/-- Every profile name finds room in the table. -/
def ProfilesFit (s : Storage) (is : List ℕ) : Prop :=
  Runs.Guarded (fun s i => nivonaStoreSetAlpha s (profileId i) (profileName i))
    (fun s i => ¬s.alpha.FullFor (profileId i)) s is

theorem profileId_inj {i j : ℕ} (hi : i < 4) (hj : j < 4) (h : profileId i = profileId j) :
    i = j := by
  have hfin : ∀ i j : Fin 4, profileId i = profileId j → i = j := by decide
  exact congrArg Fin.val (hfin ⟨i, hi⟩ ⟨j, hj⟩ h)

theorem get_setAlpha_of_ne (s : Storage) {id id' : Int16} (h : id' ≠ id) (data : List UInt8) :
    (nivonaStoreSetAlpha s id data).alpha.get id' = s.alpha.get id' :=
  s.alpha.get_put_of_ne h _

theorem get_setAlpha_self {s : Storage} {id : Int16} (hroom : ¬s.alpha.FullFor id)
    (data : List UInt8) :
    (nivonaStoreSetAlpha s id data).alpha.get id = some (data.take NIVONA_ALPHA_MAX) := by
  rw [nivonaStoreSetAlpha, setAlphaMem, List.take_take, min_self]
  exact SlotTable.get_put_self hroom _

/-- A register that is there can be written. -/
theorem isSome_setAlpha {s : Storage} {id : Int16} (hroom : ¬s.alpha.FullFor id)
    (data : List UInt8) {id' : Int16} (h : (s.alpha.get id').isSome) :
    ((nivonaStoreSetAlpha s id data).alpha.get id').isSome := by
  by_cases hid : id' = id
  · rw [hid, get_setAlpha_self hroom, Option.isSome_some]
  · rwa [get_setAlpha_of_ne s hid]

theorem not_fullFor_of_isSome {s : Storage} {id : Int16} (h : (s.alpha.get id).isSome) :
    ¬s.alpha.FullFor id := by
  obtain ⟨data, hdata⟩ := Option.isSome_iff_exists.mp h
  exact SlotTable.not_fullFor_of_get hdata

/-- Names that are there already can be written again. -/
theorem profilesFit_of_present (is : List ℕ) {s : Storage}
    (h : ∀ i ∈ is, (s.alpha.get (profileId i)).isSome) : ProfilesFit s is := by
  induction is generalizing s with
  | nil => trivial
  | cons i is ih =>
      have hroom := not_fullFor_of_isSome (h i List.mem_cons_self)
      exact ⟨hroom, ih fun j hj =>
        isSome_setAlpha hroom _ (h j (List.mem_cons_of_mem i hj))⟩

/-- Names fit a table with as many free slots. -/
theorem profilesFit_of_size (is : List ℕ) {s : Storage}
    (hsize : (SlotTable.keys s.alpha.slots).length + is.length ≤ ALPHA_CAP) :
    ProfilesFit s is := by
  induction is generalizing s with
  | nil => trivial
  | cons i is ih =>
      rw [List.length_cons] at hsize
      have hput := SlotTable.length_keys_write_le (profileId i)
        (((profileName i).take NIVONA_ALPHA_MAX).take NIVONA_ALPHA_MAX) s.alpha.slots
      refine ⟨SlotTable.not_fullFor_of_size_lt (by omega) _, ih ?_⟩
      change (SlotTable.keys (SlotTable.write _ _ s.alpha.slots)).length + _ ≤ _
      omega

/-- Other registers keep their bytes. -/
theorem get_profiles_of_not_mem (is : List ℕ) {s : Storage} {id : Int16}
    (h : ∀ i ∈ is, id ≠ profileId i) :
    (Runs.run (fun s i => nivonaStoreSetAlpha s (profileId i) (profileName i)) s is).alpha.get id =
      s.alpha.get id := by
  induction is generalizing s with
  | nil => rfl
  | cons i is ih =>
      rw [Runs.run_cons, ih fun j hj => h j (List.mem_cons_of_mem i hj),
        get_setAlpha_of_ne s (h i List.mem_cons_self)]

/-- A profile register holds its name afterwards. -/
theorem get_profiles_of_mem (is : List ℕ) {s : Storage} (hfit : ProfilesFit s is)
    (hlt : ∀ i ∈ is, i < 4) {i : ℕ} (hi : i ∈ is) :
    (Runs.run (fun s i => nivonaStoreSetAlpha s (profileId i) (profileName i)) s is).alpha.get
      (profileId i) = some (profileName i) := by
  induction is generalizing s with
  | nil => exact absurd hi List.not_mem_nil
  | cons j is ih =>
      obtain ⟨hroom, hrest⟩ := hfit
      have hlt' : ∀ k ∈ is, k < 4 := fun k hk => hlt k (List.mem_cons_of_mem j hk)
      rw [Runs.run_cons]
      by_cases his : i ∈ is
      · exact ih hrest hlt' his
      · obtain rfl : i = j := (List.mem_cons.mp hi).resolve_right his
        rw [get_profiles_of_not_mem is, get_setAlpha_self hroom]
        · rfl
        · intro k hk heq
          exact his (profileId_inj (hlt i hi) (hlt' k hk) heq ▸ hk)

/-! ## Booting -/

/-- The numerical seeds leave the alphanumeric registers alone. -/
theorem seedNums_alpha (seeds : List (Int16 × Int32)) (s : Storage) :
    (Runs.run seedNumStep s seeds).alpha = s.alpha ∧
      (s.AlphaMirrored → (Runs.run seedNumStep s seeds).AlphaMirrored) := by
  refine Runs.invariant (P := fun s' : Storage =>
    s'.alpha = s.alpha ∧ (s.AlphaMirrored → s'.AlphaMirrored)) ?_
    ⟨rfl, id⟩ seeds
  intro s' e hs
  rcases seedNum_cases s' e.1 e.2 with ⟨he, -⟩ | ⟨he, -⟩
  · rwa [seedNumStep, he]
  · rw [seedNumStep, he]
    exact ⟨hs.1, fun h => (hs.2 h).setNum e.1 e.2⟩

/-- After a boot the profile registers hold their names, and the others what
was in flash. -/
theorem Storage.AlphaMirrored.get_nivonaStoreInit {s : Storage} (h : s.AlphaMirrored)
    (it : NvsIterator) (stats : Stats)
    (hfit : ProfilesFit (nvsLoadAll it (Storage.blank s.nvs)) (List.range 4)) :
    (nivonaStoreInit it stats s.nvs).AlphaMirrored ∧
    (∀ i < 4, (nivonaStoreInit it stats s.nvs).alpha.get (profileId i) = some (profileName i)) ∧
    ∀ id, (∀ i < 4, id ≠ profileId i) →
      (nivonaStoreInit it stats s.nvs).alpha.get id = s.alpha.get id := by
  obtain ⟨halpha, hmirrored⟩ := seedNums_alpha (numSeeds stats)
    (seedProfiles (nvsLoadAll it (Storage.blank s.nvs)))
  have hload : (nvsLoadAll it (Storage.blank s.nvs)).AlphaMirrored :=
    { mirrors := h.mirrors.congr (fun key => by rw [nvsLoadAll_blank]) (h.get_nvsLoadAll it)
      size := fun id data hget => h.size id data ((h.get_nvsLoadAll it id).symm.trans hget) }
  have hprofiles : (seedProfiles (nvsLoadAll it (Storage.blank s.nvs))).AlphaMirrored :=
    hfit.invariant (fun s i hs hroom => hs.setAlpha hroom _) hload
  rw [nivonaStoreInit_eq, halpha]
  refine ⟨hmirrored hprofiles, ?_, ?_⟩
  · intro i hi
    exact get_profiles_of_mem (List.range 4) hfit (fun i hi => List.mem_range.mp hi)
      (List.mem_range.mpr hi)
  · intro id hid
    rw [seedProfiles, get_profiles_of_not_mem _ fun i hi => hid i (List.mem_range.mp hi),
      h.get_nvsLoadAll]

/-! ## Runs -/

/-- A write to a register, or a reboot. -/
inductive AlphaOp
  | write (id : Int16) (data : List UInt8)
  | reboot (it : NvsIterator) (stats : Stats)

def alphaStep (s : Storage) : AlphaOp → Storage
  | .write id data => nivonaStoreSetAlpha s id data
  | .reboot it stats => nivonaStoreInit it stats s.nvs

/-- A write finds room in the table. -/
def AlphaFits (s : Storage) : AlphaOp → Prop
  | .write id _ => ¬s.alpha.FullFor id
  | .reboot .. => True

instance (s : Storage) : (op : AlphaOp) → Decidable (AlphaFits s op)
  | .write id _ => inferInstanceAs (Decidable (¬s.alpha.FullFor id))
  | .reboot .. => inferInstanceAs (Decidable True)

/-- Memory and flash agree, and the profile names are there. -/
structure AlphaInv (s : Storage) : Prop where
  mirrored : s.AlphaMirrored
  profiles : ∀ i < 4, (s.alpha.get (profileId i)).isSome

theorem AlphaInv.profilesFit {s : Storage} (h : AlphaInv s) (it : NvsIterator) :
    ProfilesFit (nvsLoadAll it (Storage.blank s.nvs)) (List.range 4) :=
  profilesFit_of_present _ fun i hi => by
    rw [h.mirrored.get_nvsLoadAll]
    exact h.profiles i (List.mem_range.mp hi)

theorem AlphaInv.boot {s : Storage} (h : AlphaInv s) (it : NvsIterator) (stats : Stats) :
    AlphaInv (nivonaStoreInit it stats s.nvs) := by
  obtain ⟨hmirrored, hprofiles, -⟩ := h.mirrored.get_nivonaStoreInit it stats (h.profilesFit it)
  exact ⟨hmirrored, fun i hi => by rw [hprofiles i hi, Option.isSome_some]⟩

/-- The first boot, on flash without alphanumeric registers. -/
theorem alphaInv_firstBoot (it : NvsIterator) (stats : Stats) {nvs : Nvs}
    (h : nvs .alpha = none) : AlphaInv (nivonaStoreInit it stats nvs) := by
  have hblank : (Storage.blank nvs).AlphaMirrored :=
    { mirrors :=
        { get_makeKey := fun id => by simp [Storage.blank, Nvs.get, h]
          canonical := fun key hkey => absurd (by simp [Storage.blank, Nvs.get, h]) hkey }
      size := fun id data hget => by simp [Storage.blank] at hget }
  have hfit : ProfilesFit (nvsLoadAll it (Storage.blank nvs)) (List.range 4) := by
    apply profilesFit_of_size _
    rw [nvsLoadAll_blank]
    simp [Nvs.entryFind, h, readEntries, SlotTable.load, SlotTable.empty, ALPHA_CAP]
  obtain ⟨hmirrored, hprofiles, -⟩ := hblank.get_nivonaStoreInit it stats hfit
  exact ⟨hmirrored, fun i hi => Option.isSome_iff_exists.mpr ⟨_, hprofiles i hi⟩⟩

theorem alphaInv_step (s : Storage) (op : AlphaOp) (h : AlphaInv s) (hfits : AlphaFits s op) :
    AlphaInv (alphaStep s op) := by
  cases op with
  | write id data =>
      exact ⟨h.mirrored.setAlpha hfits data, fun i hi =>
        isSome_setAlpha hfits data (h.profiles i hi)⟩
  | reboot it stats => exact h.boot it stats

/-- After any run of writes and reboots in which the table never fills, a
register survives the next reboot exactly when it is not a profile name or
holds its default name. -/
theorem alpha_survives_reboot_iff (nvs : Nvs) (hnew : nvs .alpha = none) (first it : NvsIterator)
    (stats stats' : Stats) (ops : List AlphaOp)
    (hrun : Runs.Guarded alphaStep AlphaFits (nivonaStoreInit first stats nvs) ops)
    (id : Int16) :
    let s := Runs.run alphaStep (nivonaStoreInit first stats nvs) ops
    (∀ max, nivonaStoreGetAlpha (nivonaStoreInit it stats' s.nvs) id max =
      nivonaStoreGetAlpha s id max) ↔
    ∀ i < 4, id = profileId i → nivonaStoreGetAlpha s id NIVONA_ALPHA_MAX = profileName i := by
  intro s
  have hinv : AlphaInv s := hrun.invariant alphaInv_step (alphaInv_firstBoot first stats hnew)
  obtain ⟨-, hprofiles, hothers⟩ :=
    hinv.mirrored.get_nivonaStoreInit it stats' (hinv.profilesFit it)
  constructor
  · rintro h i hi rfl
    rw [← h, nivonaStoreGetAlpha, hprofiles i hi]
    rfl
  · intro h max
    by_cases hid : ∀ i < 4, id ≠ profileId i
    · rw [nivonaStoreGetAlpha, nivonaStoreGetAlpha, hothers id hid]
    · simp only [not_forall, not_not] at hid
      obtain ⟨i, hi, rfl⟩ := hid
      obtain ⟨data, hdata⟩ := Option.isSome_iff_exists.mp (hinv.profiles i hi)
      have hname := h i hi rfl
      simp only [nivonaStoreGetAlpha, hdata] at hname
      rw [List.take_of_length_le (hinv.mirrored.size _ _ hdata)] at hname
      rw [nivonaStoreGetAlpha, nivonaStoreGetAlpha, hprofiles i hi, hdata, hname]

/-- A register outside the profile range survives. -/
theorem alpha_survives_reboot_0200 :
    let s := Runs.run alphaStep
      (nivonaStoreInit NvsIterator.storageOrder (nivonaStatsCurrent 7) Nvs.empty)
      [.write 0x0200 [0x41, 0x6C, 0x69, 0x63, 0x65]]
    ∀ max, nivonaStoreGetAlpha
        (nivonaStoreInit NvsIterator.storageOrder (nivonaStatsCurrent 7) s.nvs) 0x0200 max =
      nivonaStoreGetAlpha s 0x0200 max :=
  (alpha_survives_reboot_iff Nvs.empty rfl NvsIterator.storageOrder NvsIterator.storageOrder
    (nivonaStatsCurrent 7) (nivonaStatsCurrent 7) [.write 0x0200 [0x41, 0x6C, 0x69, 0x63, 0x65]]
    (by decide +kernel) 0x0200).mpr (by decide)

/-- The first profile is renamed to `Alice`, and the reboot takes the name back. -/
theorem alpha_lost_on_reboot_0100 :
    let fresh := nivonaStoreInit NvsIterator.storageOrder (nivonaStatsCurrent 7) Nvs.empty
    let ops : List AlphaOp := [.write 0x0100 [0x41, 0x6C, 0x69, 0x63, 0x65]]
    let s := Runs.run alphaStep fresh ops
    let s' := nivonaStoreInit NvsIterator.storageOrder (nivonaStatsCurrent 7) s.nvs
    Runs.Guarded alphaStep AlphaFits fresh ops ∧
      nivonaStoreGetAlpha s 0x0100 NIVONA_ALPHA_MAX = [0x41, 0x6C, 0x69, 0x63, 0x65] ∧
      nivonaStoreGetAlpha s' 0x0100 NIVONA_ALPHA_MAX = profileName 0 ∧
      nivonaStoreGetAlpha s' 0x0100 NIVONA_ALPHA_MAX ≠
        nivonaStoreGetAlpha s 0x0100 NIVONA_ALPHA_MAX := by
  decide +kernel

end Nivona
