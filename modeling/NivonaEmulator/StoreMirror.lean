import NivonaEmulator.Lib.Runs
import NivonaEmulator.Store

/-!
# Registers in memory and in flash

A register table and its namespace mirror each other: the namespace holds the
entries of the table under their decimal keys and nothing else.  Loading a
mirrored namespace into an empty table gives the table back, in whatever order
the entries are visited.
-/

namespace Nivona

variable {ν : Type} {cap : ℕ}

/-- The namespace holds exactly the entries of the table. -/
structure Mirrors (nvs : Nvs) (ns : NvsNamespace) (enc : ν → NvsValue)
    (t : SlotTable Int16 ν cap) : Prop where
  get_makeKey : ∀ id, nvs.get ns (makeKey id) = (t.get id).map enc
  canonical : ∀ key, nvs.get ns key ≠ none → ∃ id, key = makeKey id

section

variable {nvs nvs' : Nvs} {ns : NvsNamespace} {enc : ν → NvsValue} {t t' : SlotTable Int16 ν cap}

theorem mirrors_empty : Mirrors Nvs.empty ns enc (SlotTable.empty : SlotTable Int16 ν cap) where
  get_makeKey := fun id => by simp
  canonical := fun key h => absurd Nvs.get_empty h

/-- Only the entries count. -/
theorem Mirrors.congr (h : Mirrors nvs ns enc t) (hnvs : ∀ key, nvs'.get ns key = nvs.get ns key)
    (ht : ∀ id, t'.get id = t.get id) : Mirrors nvs' ns enc t' where
  get_makeKey := fun id => by rw [hnvs, ht, h.get_makeKey]
  canonical := fun key hkey => h.canonical key (by rwa [hnvs] at hkey)

/-- A write that finds room goes to both. -/
theorem Mirrors.put (h : Mirrors nvs ns enc t) {id : Int16} (hroom : ¬t.FullFor id) (v : ν) :
    Mirrors (nvs.set ns (makeKey id) (enc v)) ns enc (t.put id v) where
  get_makeKey := fun id' => by
    by_cases hid : id' = id
    · subst hid
      rw [Nvs.get_set_self, SlotTable.get_put_self hroom, Option.map_some]
    · rw [Nvs.get_set_of_key_ne _ (makeKey_injective.ne hid), t.get_put_of_ne hid,
        h.get_makeKey]
  canonical := fun key hkey => by
    by_cases hid : key = makeKey id
    · exact ⟨id, hid⟩
    · rw [Nvs.get_set_of_key_ne _ hid] at hkey
      exact h.canonical key hkey

/-- An erasure takes the entry out of both. -/
theorem Mirrors.remove (h : Mirrors nvs ns enc t) (id : Int16) :
    Mirrors (nvs.eraseKey ns (makeKey id)) ns enc (t.remove id) where
  get_makeKey := fun id' => by
    by_cases hid : id' = id
    · subst hid
      rw [Nvs.get_eraseKey_self, SlotTable.get_remove_self, Option.map_none]
    · rw [Nvs.get_eraseKey_of_key_ne _ (makeKey_injective.ne hid), t.get_remove_of_ne hid,
        h.get_makeKey]
  canonical := fun key hkey => by
    by_cases hid : key = makeKey id
    · exact ⟨id, hid⟩
    · rw [Nvs.get_eraseKey_of_key_ne _ hid] at hkey
      exact h.canonical key hkey

/-! ## Loading -/

/-- The entries read from a list of keys. -/
def readEntries (read : NvsKey → Option ν) (keys : List NvsKey) : List (Int16 × ν) :=
  keys.filterMap fun key => (read key).map fun v => (idOfKey key, v)

/-- Loading all keys of a mirrored namespace gives the table back. -/
theorem Mirrors.get_load (h : Mirrors nvs ns enc t) {read : NvsKey → Option ν}
    (hsound : ∀ key v, read key = some v → nvs.get ns key = some (enc v))
    (hcomplete : ∀ id v, t.get id = some v → read (makeKey id) = some v)
    (henc : Function.Injective enc) {keys : List NvsKey} (hnodup : keys.Nodup)
    (hkeys : ∀ id v, t.get id = some v → makeKey id ∈ keys) (id : Int16) :
    ((SlotTable.empty : SlotTable Int16 ν cap).load (readEntries read keys)).get id = t.get id := by
  -- a key that is read is the key of its id
  have hkey {key : NvsKey} {v : ν} (hr : read key = some v) : key = makeKey (idOfKey key) := by
    obtain ⟨i, rfl⟩ := h.canonical key (by rw [hsound key v hr]; simp)
    rw [idOfKey_makeKey]
  have hmem (i : Int16) (v : ν) : (i, v) ∈ readEntries read keys ↔ t.get i = some v := by
    simp only [readEntries, List.mem_filterMap, Option.map_eq_some_iff, Prod.mk.injEq]
    constructor
    · rintro ⟨key, -, w, hr, rfl, rfl⟩
      have hget := hsound key w hr
      rw [hkey hr, h.get_makeKey, Option.map_eq_some_iff] at hget
      obtain ⟨u, hu, hue⟩ := hget
      rwa [← henc hue]
    · intro ht
      exact ⟨makeKey i, hkeys i v ht, v, hcomplete i v ht, idOfKey_makeKey i, rfl⟩
  have hids : ((readEntries read keys).map Prod.fst).Nodup := by
    rw [readEntries, List.map_filterMap]
    apply hnodup.filterMap
    intro key key' i hi hi'
    simp only [Option.mem_def, Option.map_map, Option.map_eq_some_iff, Function.comp_apply]
      at hi hi'
    obtain ⟨v, hv, rfl⟩ := hi
    obtain ⟨v', hv', heq⟩ := hi'
    rw [hkey hv, hkey hv', heq]
  have hfit : (readEntries read keys).length ≤ cap := by
    rw [← List.length_map Prod.fst]
    apply SlotTable.length_le_of_keys_subset (t := t) hids
    intro i hi
    obtain ⟨⟨i, v⟩, hiv, rfl⟩ := List.mem_map.mp hi
    rw [(hmem i v).mp hiv, Option.isSome_some]
  exact Option.ext fun v => (SlotTable.get_load_empty _ hids hfit id v).trans (hmem id v)

end

/-! ## The load path -/

/-- Blobs are cut to the register size on their way into memory. -/
def readAlpha (nvs : Nvs) (key : NvsKey) : Option (List UInt8) :=
  (nvs.getBlob .alpha key NIVONA_ALPHA_MAX).map (List.take NIVONA_ALPHA_MAX)

theorem foldl_loadNum (keys : List NvsKey) (s : Storage) :
    keys.foldl loadNum s =
      { s with num := s.num.load (readEntries (s.nvs.getI32 .num) keys) } := by
  induction keys generalizing s with
  | nil => rfl
  | cons key keys ih =>
      rw [List.foldl_cons, ih, loadNum]
      cases hr : s.nvs.getI32 .num key with
      | none => simp [readEntries, hr]
      | some v => simp [readEntries, hr, setNumMem, SlotTable.load]

theorem foldl_loadAlpha (keys : List NvsKey) (s : Storage) :
    keys.foldl loadAlpha s =
      { s with alpha := s.alpha.load (readEntries (readAlpha s.nvs) keys) } := by
  induction keys generalizing s with
  | nil => rfl
  | cons key keys ih =>
      rw [List.foldl_cons, ih, loadAlpha]
      cases hr : s.nvs.getBlob .alpha key NIVONA_ALPHA_MAX with
      | none => simp [readEntries, readAlpha, hr]
      | some v => simp [readEntries, readAlpha, hr, setAlphaMem, SlotTable.load]

/-- Memory before the registers are loaded. -/
def Storage.blank (nvs : Nvs) : Storage :=
  { nvs := nvs, num := SlotTable.empty, alpha := SlotTable.empty, batchOpen := false }

theorem nvsLoadAll_blank (it : NvsIterator) (nvs : Nvs) :
    nvsLoadAll it (Storage.blank nvs) =
      { nvs := nvs
        num := SlotTable.empty.load
          (readEntries (nvs.getI32 .num) (nvs.entryFind it .num NvsValue.isI32))
        alpha := SlotTable.empty.load
          (readEntries (readAlpha nvs) (nvs.entryFind it .alpha NvsValue.isBlob))
        batchOpen := false } := by
  rw [nvsLoadAll, foldl_loadNum, foldl_loadAlpha]
  rfl

/-- The numerical registers and their namespace agree. -/
def Storage.NumMirrored (s : Storage) : Prop :=
  Mirrors s.nvs .num NvsValue.i32 s.num

/-- The alphanumeric registers and their namespace agree, and no register is
longer than its buffer. -/
structure Storage.AlphaMirrored (s : Storage) : Prop where
  mirrors : Mirrors s.nvs .alpha NvsValue.blob s.alpha
  size : ∀ id data, s.alpha.get id = some data → data.length ≤ NIVONA_ALPHA_MAX

theorem Nvs.getI32_eq_some {nvs : Nvs} {ns : NvsNamespace} {key : NvsKey} {v : Int32} :
    nvs.getI32 ns key = some v ↔ nvs.get ns key = some (.i32 v) := by
  rw [Nvs.getI32]
  split
  · rename_i w h
    simp [h]
  · rename_i h
    constructor
    · simp
    · exact fun hget => absurd hget (h v)

theorem Nvs.getBlob_eq_some {nvs : Nvs} {ns : NvsNamespace} {key : NvsKey} {size : ℕ}
    {bytes : List UInt8} :
    nvs.getBlob ns key size = some bytes ↔
      nvs.get ns key = some (.blob bytes) ∧ bytes.length ≤ size := by
  rw [Nvs.getBlob]
  split
  · rename_i bs h
    rw [h]
    by_cases hlen : bs.length ≤ size
    · simp only [hlen, if_true, Option.some.injEq, NvsValue.blob.injEq]
      exact ⟨fun he => ⟨he, he ▸ hlen⟩, fun he => he.1⟩
    · simp only [hlen, if_false, Option.some.injEq, NvsValue.blob.injEq]
      constructor
      · simp
      · rintro ⟨rfl, hle⟩
        exact absurd hle hlen
  · rename_i h
    constructor
    · simp
    · exact fun hget => absurd hget.1 (h bytes)

/-- Loading gives back the numerical registers. -/
theorem Storage.NumMirrored.get_nvsLoadAll {s : Storage} (h : s.NumMirrored) (it : NvsIterator)
    (id : Int16) : (nvsLoadAll it (Storage.blank s.nvs)).num.get id = s.num.get id := by
  have hget {id : Int16} {v : Int32} (hv : s.num.get id = some v) :
      s.nvs.get .num (makeKey id) = some (.i32 v) := by
    rw [Mirrors.get_makeKey h, hv, Option.map_some]
  rw [nvsLoadAll_blank]
  refine Mirrors.get_load h (fun key v hr => Nvs.getI32_eq_some.mp hr)
    (fun id v hv => Nvs.getI32_eq_some.mpr (hget hv)) (fun _ _ he => NvsValue.i32.inj he)
    (s.nvs.nodup_entryFind it .num NvsValue.isI32) ?_ id
  intro id v hv
  exact (s.nvs.mem_entryFind it NvsValue.isI32).mpr ⟨_, hget hv, rfl⟩

/-- Loading gives back the alphanumeric registers. -/
theorem Storage.AlphaMirrored.get_nvsLoadAll {s : Storage} (h : s.AlphaMirrored)
    (it : NvsIterator) (id : Int16) :
    (nvsLoadAll it (Storage.blank s.nvs)).alpha.get id = s.alpha.get id := by
  have hget {id : Int16} {data : List UInt8} (hv : s.alpha.get id = some data) :
      s.nvs.get .alpha (makeKey id) = some (.blob data) := by
    rw [h.mirrors.get_makeKey, hv, Option.map_some]
  rw [nvsLoadAll_blank]
  refine h.mirrors.get_load ?_ ?_
    (fun _ _ he => NvsValue.blob.inj he) (s.nvs.nodup_entryFind it .alpha NvsValue.isBlob)
    ?_ id
  · intro key data hr
    obtain ⟨bytes, hbytes, rfl⟩ := Option.map_eq_some_iff.mp hr
    obtain ⟨hblob, hlen⟩ := Nvs.getBlob_eq_some.mp hbytes
    rw [List.take_of_length_le hlen, hblob]
  · intro id data hv
    have hlen := h.size id data hv
    rw [readAlpha, Nvs.getBlob_eq_some.mpr ⟨hget hv, hlen⟩, Option.map_some,
      List.take_of_length_le hlen]
  · intro id v hv
    exact (s.nvs.mem_entryFind it NvsValue.isBlob).mpr ⟨_, hget hv, rfl⟩

/-! ## Writes -/

/-- Opening a namespace adds no entries. -/
theorem Nvs.get_openReadwrite (nvs : Nvs) (ns ns' : NvsNamespace) (key : NvsKey) :
    Nvs.get (Function.update nvs ns (some (nvs.openReadwrite ns))) ns' key = nvs.get ns' key := by
  by_cases h : ns' = ns
  · subst h
    rw [nvs.get_eq_lookup, Nvs.get, Function.update_self]
    rfl
  · rw [Nvs.get, Nvs.get, Function.update_of_ne h]

section

variable {s : Storage} {id : Int16}

theorem Storage.NumMirrored.setNum (h : s.NumMirrored) (hroom : ¬s.num.FullFor id) (v : Int32) :
    (nivonaStoreSetNum s id v).NumMirrored :=
  Mirrors.put h hroom v

theorem Storage.NumMirrored.eraseNum (h : s.NumMirrored) (id : Int16) :
    (nivonaStoreEraseNum s id).NumMirrored :=
  Mirrors.remove h id

theorem Storage.NumMirrored.batchBegin (h : s.NumMirrored) :
    (nivonaStoreBatchBegin s).NumMirrored :=
  Mirrors.congr h (s.nvs.get_openReadwrite .num .num) fun _ => rfl

theorem Storage.NumMirrored.batchSetNum (h : s.NumMirrored) (hopen : s.batchOpen = true)
    (hroom : ¬s.num.FullFor id) (v : Int32) : (nivonaStoreBatchSetNum s id v).NumMirrored := by
  have hset : nivonaStoreBatchSetNum s id v = nivonaStoreSetNum s id v := by
    rw [nivonaStoreBatchSetNum, nivonaStoreSetNum]
    exact if_pos hopen
  rw [hset]
  exact h.setNum hroom v

theorem Storage.NumMirrored.setAlpha (h : s.NumMirrored) (id : Int16) (data : List UInt8) :
    (nivonaStoreSetAlpha s id data).NumMirrored :=
  Mirrors.congr h (fun _ => Nvs.get_set_of_ns_ne _ (by decide) _) fun _ => rfl

theorem Storage.AlphaMirrored.setAlpha (h : s.AlphaMirrored) (hroom : ¬s.alpha.FullFor id)
    (data : List UInt8) : (nivonaStoreSetAlpha s id data).AlphaMirrored where
  mirrors := by
    have := h.mirrors.put hroom (data.take NIVONA_ALPHA_MAX)
    rw [nivonaStoreSetAlpha, setAlphaMem, List.take_take, min_self]
    exact this
  size := fun id' data' hget => by
    by_cases hid : id' = id
    · subst hid
      rw [nivonaStoreSetAlpha, setAlphaMem] at hget
      dsimp only at hget
      rw [SlotTable.get_put_self hroom] at hget
      obtain rfl := Option.some.inj hget
      exact List.length_take_le _ _
    · rw [nivonaStoreSetAlpha, setAlphaMem] at hget
      dsimp only at hget
      rw [s.alpha.get_put_of_ne hid] at hget
      exact h.size id' data' hget

theorem Storage.AlphaMirrored.setNum (h : s.AlphaMirrored) (id : Int16) (v : Int32) :
    (nivonaStoreSetNum s id v).AlphaMirrored where
  mirrors := h.mirrors.congr (fun _ => Nvs.get_set_of_ns_ne _ (by decide) _) fun _ => rfl
  size := h.size

end

/-! ## Seeds -/

/-- The profile names, in the order they are written. -/
def seedProfiles (s : Storage) : Storage :=
  Runs.run (fun s i => nivonaStoreSetAlpha s (profileId i) (profileName i)) s (List.range 4)

/-- The numerical defaults, in the order they are seeded. -/
def numSeeds (stats : Stats) : List (Int16 × Int32) :=
  PCT_IDS.map (fun id => (id, 100)) ++ WARN_IDS.map (fun id => (id, 0)) ++
    if stats.filterDepId ≠ 0 then [(stats.filterDepId, 0)] else []

/-- No family has two defaults for one register. -/
theorem nodup_numSeeds (f : FamilyId) : ((numSeeds (nivonaStatsCurrent f)).map Prod.fst).Nodup := by
  have hall : ∀ f : FamilyId, ((numSeeds (nivonaStatsCurrent f)).map Prod.fst).Nodup := by decide
  exact hall f

/-- Gauges are full by default, and everything else is zero. -/
theorem numSeeds_value {f : FamilyId} {e : Int16 × Int32}
    (he : e ∈ numSeeds (nivonaStatsCurrent f)) : e.2 = if e.1 ∈ PCT_IDS then 100 else 0 := by
  have hwarn : ∀ id ∈ WARN_IDS, id ∉ PCT_IDS := by simp [WARN_IDS, PCT_IDS]
  have hdep : ∀ f : FamilyId, (nivonaStatsCurrent f).filterDepId ∉ PCT_IDS := by decide
  rw [numSeeds, List.mem_append, List.mem_append, List.mem_map, List.mem_map] at he
  rcases he with (⟨id, hid, rfl⟩ | ⟨id, hid, rfl⟩) | hfilter
  · rw [if_pos hid]
  · rw [if_neg (hwarn id hid)]
  · split at hfilter
    · obtain rfl := List.mem_singleton.mp hfilter
      rw [if_neg (hdep f)]
    · cases hfilter

def seedNumStep (s : Storage) (e : Int16 × Int32) : Storage := seedNum s e.1 e.2

theorem seedDefaults_eq (stats : Stats) (s : Storage) :
    seedDefaults stats s = Runs.run seedNumStep (seedProfiles s) (numSeeds stats) := by
  simp only [seedDefaults, seedProfiles, numSeeds, Runs.run, List.foldl_append, List.foldl_map,
    seedNumStep]
  by_cases h : stats.filterDepId = 0
  · simp only [h, ne_eq, not_true_eq_false, if_false, List.foldl_nil]
  · simp only [h, ne_eq, not_false_eq_true, if_true, List.foldl_cons, List.foldl_nil,
      seedNumStep]

/-- A boot loads, then writes the profile names, then seeds. -/
theorem nivonaStoreInit_eq (it : NvsIterator) (stats : Stats) (nvs : Nvs) :
    nivonaStoreInit it stats nvs =
      Runs.run seedNumStep (seedProfiles (nvsLoadAll it (Storage.blank nvs))) (numSeeds stats) :=
  seedDefaults_eq stats _

/-- Seeding writes at most what is absent. -/
theorem seedNum_cases (s : Storage) (id : Int16) (v : Int32) :
    (seedNum s id v = s ∧ (s.num.get id).isSome) ∨
      (seedNum s id v = nivonaStoreSetNum s id v ∧ s.num.get id = none) := by
  rw [seedNum, nivonaStoreHasNum]
  cases hget : s.num.get id with
  | none => exact .inr ⟨rfl, rfl⟩
  | some w => exact .inl ⟨rfl, rfl⟩

/-- A register that is there keeps its value. -/
theorem get_seedNums_of_some {id : Int16} {v : Int32} (seeds : List (Int16 × Int32)) {s : Storage}
    (h : s.num.get id = some v) : (Runs.run seedNumStep s seeds).num.get id = some v := by
  refine Runs.invariant (P := fun s : Storage => s.num.get id = some v) ?_ h seeds
  intro s e hs
  rcases seedNum_cases s e.1 e.2 with ⟨he, -⟩ | ⟨he, hnone⟩
  · rw [seedNumStep, he]
    exact hs
  · have hid : id ≠ e.1 := by
      rintro rfl
      rw [hs] at hnone
      simp at hnone
    rw [seedNumStep, he]
    exact (s.num.get_put_of_ne hid e.2).trans hs

/-- A register that is absent stays absent unless it is seeded. -/
theorem get_seedNums_of_none {id : Int16} (seeds : List (Int16 × Int32)) {s : Storage}
    (hid : id ∉ seeds.map Prod.fst) (h : s.num.get id = none) :
    (Runs.run seedNumStep s seeds).num.get id = none := by
  induction seeds generalizing s with
  | nil => exact h
  | cons e seeds ih =>
      rw [List.map_cons, List.mem_cons, not_or] at hid
      apply ih hid.2
      rcases seedNum_cases s e.1 e.2 with ⟨he, -⟩ | ⟨he, -⟩
      · rw [seedNumStep, he, h]
      · rw [seedNumStep, he]
        exact (s.num.get_put_of_ne hid.1 e.2).trans h

/-- The profile names do not touch the numerical registers. -/
theorem seedProfiles_num (s : Storage) :
    (seedProfiles s).num = s.num ∧
      ∀ key, (seedProfiles s).nvs.get .num key = s.nvs.get .num key := by
  refine Runs.invariant (P := fun s' : Storage => s'.num = s.num ∧
    ∀ key, s'.nvs.get .num key = s.nvs.get .num key) ?_ ⟨rfl, fun _ => rfl⟩ _
  intro s' i hs
  exact ⟨hs.1, fun key => (Nvs.get_set_of_ns_ne _ (by decide) _).trans (hs.2 key)⟩

/-- Every seed of a boot finds room in the table. -/
def SeedsFit (it : NvsIterator) (stats : Stats) (nvs : Nvs) : Prop :=
  Runs.Guarded seedNumStep (fun s e => ¬s.num.FullFor e.1)
    (seedProfiles (nvsLoadAll it (Storage.blank nvs))) (numSeeds stats)

instance (it : NvsIterator) (stats : Stats) (nvs : Nvs) : Decidable (SeedsFit it stats nvs) :=
  Runs.decidableGuarded _ _ _ _

/-- Seeds fit a table with as many free slots. -/
theorem guarded_seedNums_of_size (seeds : List (Int16 × Int32)) {s : Storage}
    (hsize : (SlotTable.keys s.num.slots).length + seeds.length ≤ NUM_CAP) :
    Runs.Guarded seedNumStep (fun s e => ¬s.num.FullFor e.1) s seeds := by
  induction seeds generalizing s with
  | nil => trivial
  | cons e seeds ih =>
      rw [List.length_cons] at hsize
      refine ⟨SlotTable.not_fullFor_of_size_lt (by omega) _, ih ?_⟩
      rcases seedNum_cases s e.1 e.2 with ⟨he, -⟩ | ⟨he, -⟩
      · rw [seedNumStep, he]
        omega
      · have hput := SlotTable.length_keys_write_le e.1 e.2 s.num.slots
        rw [seedNumStep, he]
        change (SlotTable.keys (SlotTable.write e.1 e.2 s.num.slots)).length + _ ≤ _
        omega

/-- Seeds that find room take effect where nothing was stored. -/
theorem get_seedNums_of_mem {id : Int16} {v : Int32} {seeds : List (Int16 × Int32)} {s : Storage}
    (hnone : s.num.get id = none) (hmem : (id, v) ∈ seeds) (hnodup : (seeds.map Prod.fst).Nodup)
    (hfit : Runs.Guarded seedNumStep (fun s e => ¬s.num.FullFor e.1) s seeds) :
    (Runs.run seedNumStep s seeds).num.get id = some v := by
  induction seeds generalizing s with
  | nil => exact absurd hmem List.not_mem_nil
  | cons e seeds ih =>
      rw [List.map_cons, List.nodup_cons] at hnodup
      rcases List.mem_cons.mp hmem with rfl | hrest
      · rcases seedNum_cases s id v with ⟨-, hsome⟩ | ⟨he, -⟩
        · rw [hnone] at hsome
          exact absurd hsome Bool.false_ne_true
        · have hput : (seedNumStep s (id, v)).num.get id = some v := by
            rw [seedNumStep, he]
            exact SlotTable.get_put_self hfit.1 v
          exact get_seedNums_of_some seeds hput
      · have hne : id ≠ e.1 := by
          rintro rfl
          exact hnodup.1 (List.mem_map.mpr ⟨_, hrest, rfl⟩)
        have hnone' : (seedNumStep s e).num.get id = none := by
          rcases seedNum_cases s e.1 e.2 with ⟨he, -⟩ | ⟨he, -⟩
          · rw [seedNumStep, he]
            exact hnone
          · rw [seedNumStep, he]
            exact (s.num.get_put_of_ne hne e.2).trans hnone
        exact ih hnone' hrest hnodup.2 hfit.2

/-- On flash without numerical registers all seeds fit. -/
theorem seedsFit_of_num_none (it : NvsIterator) (stats : Stats) {nvs : Nvs}
    (h : nvs .num = none) : SeedsFit it stats nvs := by
  have hload : (seedProfiles (nvsLoadAll it (Storage.blank nvs))).num = SlotTable.empty := by
    rw [(seedProfiles_num _).1, nvsLoadAll_blank]
    simp [Nvs.entryFind, h, readEntries, SlotTable.load]
  have hseeds : (numSeeds stats).length ≤ 9 := by
    rw [numSeeds]
    split <;> simp [PCT_IDS, WARN_IDS]
  apply guarded_seedNums_of_size _
  rw [hload, SlotTable.empty, SlotTable.keys_replicate_none, NUM_CAP, List.length_nil]
  omega

/-- The numerical registers after a boot: those that were there, and seeds. -/
theorem Storage.NumMirrored.get_nivonaStoreInit {s : Storage} (h : s.NumMirrored)
    (it : NvsIterator) (stats : Stats) (id : Int16) :
    (∀ v, s.num.get id = some v → (nivonaStoreInit it stats s.nvs).num.get id = some v) ∧
      (s.num.get id = none → id ∉ (numSeeds stats).map Prod.fst →
        (nivonaStoreInit it stats s.nvs).num.get id = none) := by
  have hload : (seedProfiles (nvsLoadAll it (Storage.blank s.nvs))).num.get id = s.num.get id := by
    rw [(seedProfiles_num _).1, h.get_nvsLoadAll]
  rw [nivonaStoreInit_eq]
  exact ⟨fun v hv => get_seedNums_of_some _ (hload.trans hv),
    fun hnone hid => get_seedNums_of_none _ hid (hload.trans hnone)⟩

/-- A boot whose seeds fit leaves the registers mirrored. -/
theorem Storage.NumMirrored.nivonaStoreInit {s : Storage} (h : s.NumMirrored) {it : NvsIterator}
    {stats : Stats} (hfit : SeedsFit it stats s.nvs) :
    (nivonaStoreInit it stats s.nvs).NumMirrored := by
  have hstart : (seedProfiles (nvsLoadAll it (Storage.blank s.nvs))).NumMirrored := by
    obtain ⟨hnum, hnvs⟩ := seedProfiles_num (nvsLoadAll it (Storage.blank s.nvs))
    refine Mirrors.congr h ?_ ?_
    · intro key
      rw [hnvs, nvsLoadAll_blank]
    · intro id
      rw [hnum, h.get_nvsLoadAll]
  rw [nivonaStoreInit_eq]
  refine Runs.Guarded.invariant (P := Storage.NumMirrored) ?_ hfit hstart
  intro s e hs hroom
  rcases seedNum_cases s e.1 e.2 with ⟨he, -⟩ | ⟨he, -⟩
  · rwa [seedNumStep, he]
  · rw [seedNumStep, he]
    exact hs.setNum hroom e.2

end Nivona
