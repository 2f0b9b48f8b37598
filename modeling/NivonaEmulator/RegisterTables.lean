import NivonaEmulator.Lib.BoundedMap
import NivonaEmulator.Lib.Runs
import NivonaEmulator.Lib.SlotArray
import NivonaEmulator.Store

/-!
# The register tables in memory

The two static arrays and the loops over them, as the store has them: flags,
stale values and buffers of fixed length included.  They implement the slot
tables of the store, which implement finite maps of bounded capacity.
-/

namespace Nivona

/-- `num_entry_t`. -/
structure NumEntry where
  id : Int16
  value : Int32
  used : Bool
deriving DecidableEq, Repr

/-- `alpha_entry_t`; the buffer keeps what earlier values left behind. -/
structure AlphaEntry where
  id : Int16
  data : Vector UInt8 NIVONA_ALPHA_MAX
  len : ℕ
  used : Bool
deriving DecidableEq

/-- `s_num` and `s_alpha`. -/
structure RegisterTables where
  num : Vector NumEntry NUM_CAP
  alpha : Vector AlphaEntry ALPHA_CAP

/-- The arrays as `memset` leaves them. -/
def RegisterTables.empty : RegisterTables where
  num := Vector.replicate NUM_CAP { id := 0, value := 0, used := false }
  alpha := Vector.replicate ALPHA_CAP
    { id := 0, data := Vector.replicate NIVONA_ALPHA_MAX 0, len := 0, used := false }

namespace RegisterTables

/-! ## Numerical registers -/

def getNum (t : RegisterTables) (id : Int16) : Int32 :=
  match SlotArray.find NumEntry.used NumEntry.id id t.num.toList 0 with
  | some i => (t.num[i]?.map NumEntry.value).getD 0
  | none => 0

def hasNum (t : RegisterTables) (id : Int16) : Bool :=
  (SlotArray.find NumEntry.used NumEntry.id id t.num.toList 0).isSome

def setNumMem (t : RegisterTables) (id : Int16) (value : Int32) : RegisterTables :=
  { t with num :=
      match SlotArray.scan NumEntry.used NumEntry.id id t.num.toList 0 none with
      | .present i => SlotArray.update t.num i fun e => { e with value := value }
      | .free i =>
          SlotArray.update t.num i fun e => { e with id := id, value := value, used := true }
      | .full => t.num }

/-- The table part of `nivona_store_erase_num`; the id stays in the entry. -/
def eraseNum (t : RegisterTables) (id : Int16) : RegisterTables :=
  { t with num :=
      match SlotArray.find NumEntry.used NumEntry.id id t.num.toList 0 with
      | some i => SlotArray.update t.num i fun e => { e with used := false, value := 0 }
      | none => t.num }

/-! ## Alphanumeric registers -/

/-- `memcpy` to the start of a buffer. -/
def copyInto {n : ℕ} (buf : Vector UInt8 n) (bytes : List UInt8) : Vector UInt8 n :=
  Vector.ofFn fun i => bytes.getD i.val (buf.get i)

/-- What `nivona_store_get_alpha` copies out. -/
def getAlpha (t : RegisterTables) (id : Int16) (max : ℕ) : List UInt8 :=
  match SlotArray.find AlphaEntry.used AlphaEntry.id id t.alpha.toList 0 with
  | some i => (t.alpha[i]?.map fun e => e.data.toList.take (min e.len max)).getD []
  | none => []

def setAlphaMem (t : RegisterTables) (id : Int16) (data : List UInt8) : RegisterTables :=
  let len := min data.length NIVONA_ALPHA_MAX
  { t with alpha :=
      match SlotArray.scan AlphaEntry.used AlphaEntry.id id t.alpha.toList 0 none with
      | .present i => SlotArray.update t.alpha i fun e =>
          { e with data := copyInto e.data (data.take len), len := len }
      | .free i => SlotArray.update t.alpha i fun e =>
          { e with id := id, data := copyInto e.data (data.take len), len := len, used := true }
      | .full => t.alpha }

/-! ## Loading -/

/-- `nvs_load_all`. -/
def nvsLoadAll (it : NvsIterator) (nvs : Nvs) (t : RegisterTables) : RegisterTables :=
  let t := (nvs.entryFind it .num NvsValue.isI32).foldl (fun t key =>
    match nvs.getI32 .num key with
    | some v => t.setNumMem (idOfKey key) v
    | none => t) t
  (nvs.entryFind it .alpha NvsValue.isBlob).foldl (fun t key =>
    match nvs.getBlob .alpha key NIVONA_ALPHA_MAX with
    | some data => t.setAlphaMem (idOfKey key) data
    | none => t) t

end RegisterTables

/-! ## Operations -/

/-- What changes the tables. -/
inductive TableOp
  | load (it : NvsIterator) (nvs : Nvs)
  | setNumMem (id : Int16) (value : Int32)
  | setAlphaMem (id : Int16) (data : List UInt8)
  | eraseNum (id : Int16)

def RegisterTables.step (t : RegisterTables) : TableOp → RegisterTables
  | .load it nvs => t.nvsLoadAll it nvs
  | .setNumMem id value => t.setNumMem id value
  | .setAlphaMem id data => t.setAlphaMem id data
  | .eraseNum id => t.eraseNum id

/-- The same operations on the store; loading finds the given flash. -/
def storageStep (s : Storage) : TableOp → Storage
  | .load it nvs => nvsLoadAll it { s with nvs := nvs }
  | .setNumMem id value => Nivona.setNumMem s id value
  | .setAlphaMem id data => Nivona.setAlphaMem s id data
  | .eraseNum id => nivonaStoreEraseNum s id

/-- What the tables are for. -/
structure RegisterMaps where
  num : BoundedMap Int16 Int32 NUM_CAP
  alpha : BoundedMap Int16 (List UInt8) ALPHA_CAP

def RegisterMaps.empty : RegisterMaps where
  num := BoundedMap.empty
  alpha := BoundedMap.empty

def RegisterMaps.setNum (m : RegisterMaps) (id : Int16) (value : Int32) : RegisterMaps :=
  { m with num := m.num.insert id value }

def RegisterMaps.setAlpha (m : RegisterMaps) (id : Int16) (data : List UInt8) : RegisterMaps :=
  { m with alpha := m.alpha.insert id (data.take 64) }

def RegisterMaps.step (m : RegisterMaps) : TableOp → RegisterMaps
  | .load it nvs =>
      let m := (nvs.entryFind it .num NvsValue.isI32).foldl (fun m key =>
        match nvs.getI32 .num key with
        | some v => m.setNum (idOfKey key) v
        | none => m) m
      (nvs.entryFind it .alpha NvsValue.isBlob).foldl (fun m key =>
        match nvs.getBlob .alpha key NIVONA_ALPHA_MAX with
        | some data => m.setAlpha (idOfKey key) data
        | none => m) m
  | .setNumMem id value => m.setNum id value
  | .setAlphaMem id data => m.setAlpha id data
  | .eraseNum id => { m with num := m.num.erase id }

/-- What both kinds of entries keep between two representations of the registers,
loading everything keeps. -/
theorem nvsLoadAll_related {τ : Type} {R : τ → Storage → Prop} {setNum : τ → Int16 → Int32 → τ}
    {setAlpha : τ → Int16 → List UInt8 → τ}
    (hnum : ∀ t s id v, R t s → R (setNum t id v) (setNumMem s id v))
    (halpha : ∀ t s id data, R t s → R (setAlpha t id data) (setAlphaMem s id data))
    {t : τ} {s : Storage} (h : R t s) (it : NvsIterator) :
    R ((s.nvs.entryFind it .alpha NvsValue.isBlob).foldl (fun t key =>
        match s.nvs.getBlob .alpha key NIVONA_ALPHA_MAX with
        | some data => setAlpha t (idOfKey key) data
        | none => t)
      ((s.nvs.entryFind it .num NvsValue.isI32).foldl (fun t key =>
        match s.nvs.getI32 .num key with
        | some v => setNum t (idOfKey key) v
        | none => t) t)) (nvsLoadAll it s) := by
  have hloaded := List.foldl_rel (l := s.nvs.entryFind it .num NvsValue.isI32)
    (f := fun t key => match s.nvs.getI32 .num key with
      | some v => setNum t (idOfKey key) v
      | none => t) (g := loadNum)
    (r := fun t s' => R t s' ∧ s'.nvs = s.nvs) ⟨h, rfl⟩ fun key _ t s' hts => by
      rw [loadNum, hts.2]
      cases s.nvs.getI32 .num key with
      | none => exact hts
      | some v => exact ⟨hnum t s' _ v hts.1, hts.2⟩
  have hall := List.foldl_rel (l := s.nvs.entryFind it .alpha NvsValue.isBlob)
    (f := fun t key => match s.nvs.getBlob .alpha key NIVONA_ALPHA_MAX with
      | some data => setAlpha t (idOfKey key) data
      | none => t) (g := loadAlpha)
    (r := fun t s' => R t s' ∧ s'.nvs = s.nvs) hloaded fun key _ t s' hts => by
      rw [loadAlpha, hts.2]
      cases s.nvs.getBlob .alpha key NIVONA_ALPHA_MAX with
      | none => exact hts
      | some data => exact ⟨halpha t s' _ data hts.1, hts.2⟩
  rw [nvsLoadAll, hloaded.2]
  exact hall.1

/-! ## The arrays hold the slot tables -/

/-- The bytes of a register. -/
def AlphaEntry.bytes (e : AlphaEntry) : List UInt8 := e.data.toList.take e.len

/-- The arrays hold what the tables of the store hold, slot by slot. -/
structure RegisterTables.Represents (t : RegisterTables) (s : Storage) : Prop where
  num : SlotArray.slots NumEntry.used NumEntry.id NumEntry.value t.num = s.num.slots
  alpha : SlotArray.slots AlphaEntry.used AlphaEntry.id AlphaEntry.bytes t.alpha = s.alpha.slots

theorem toList_copyInto {n : ℕ} (buf : Vector UInt8 n) (bytes : List UInt8)
    (h : bytes.length ≤ n) :
    (RegisterTables.copyInto buf bytes).toList.take bytes.length = bytes := by
  apply List.ext_getElem?
  intro i
  rcases lt_or_ge i bytes.length with hlt | hge
  · have hi : i < n := by omega
    rw [List.getElem?_take_of_lt hlt, Vector.getElem?_toList, RegisterTables.copyInto,
      Vector.getElem?_ofFn, dif_pos hi, List.getD_eq_getElem?_getD, List.getElem?_eq_getElem hlt]
    rfl
  · rw [List.getElem?_eq_none hge, List.getElem?_eq_none]
    exact (List.length_take_le _ _).trans hge

namespace RegisterTables.Represents

variable {t : RegisterTables} {s : Storage}

theorem empty (nvs : Nvs) : RegisterTables.empty.Represents
    { nvs := nvs, num := SlotTable.empty, alpha := SlotTable.empty, batchOpen := false } where
  num := by simp [SlotArray.slots, RegisterTables.empty, SlotTable.empty, SlotArray.slot]
  alpha := by simp [SlotArray.slots, RegisterTables.empty, SlotTable.empty, SlotArray.slot]

theorem getNum (h : t.Represents s) (id : Int16) : t.getNum id = nivonaStoreGetNum s id := by
  have hread : s.num.get id = _ := (congrArg (SlotTable.read id) h.num).symm.trans
    (SlotArray.read_slots t.num id)
  rw [nivonaStoreGetNum, hread, RegisterTables.getNum]
  cases SlotArray.find NumEntry.used NumEntry.id id t.num.toList 0 <;> rfl

theorem hasNum (h : t.Represents s) (id : Int16) : t.hasNum id = nivonaStoreHasNum s id := by
  have hread : s.num.get id = SlotTable.read id _ := (congrArg (SlotTable.read id) h.num).symm
  rw [nivonaStoreHasNum, hread, SlotArray.isSome_read_slots, RegisterTables.hasNum]

theorem getAlpha (h : t.Represents s) (id : Int16) (max : ℕ) :
    t.getAlpha id max = nivonaStoreGetAlpha s id max := by
  have hread : s.alpha.get id = _ := (congrArg (SlotTable.read id) h.alpha).symm.trans
    (SlotArray.read_slots t.alpha id)
  rw [nivonaStoreGetAlpha_eq, hread, RegisterTables.getAlpha]
  cases SlotArray.find AlphaEntry.used AlphaEntry.id id t.alpha.toList 0 with
  | none => rfl
  | some i =>
      change (t.alpha[i]?.map fun e => e.data.toList.take (min e.len max)).getD [] =
        ((t.alpha[i]?.map AlphaEntry.bytes).map (List.take max)).getD []
      cases t.alpha[i]? with
      | none => rfl
      | some e =>
          simp only [Option.map_some, Option.getD_some, AlphaEntry.bytes, List.take_take]
          rw [Nat.min_comm]

theorem setNumMem (h : t.Represents s) (id : Int16) (value : Int32) :
    (t.setNumMem id value).Represents (Nivona.setNumMem s id value) where
  num := by
    refine (SlotArray.slots_write t.num id value ?_ ?_).trans
      (congrArg (SlotTable.write id value) h.num)
    · intro e hused hid
      simp [SlotArray.slot, hused, hid]
    · intro e
      simp [SlotArray.slot]
  alpha := h.alpha

theorem setAlphaMem (h : t.Represents s) (id : Int16) (data : List UInt8) :
    (t.setAlphaMem id data).Represents (Nivona.setAlphaMem s id data) where
  num := h.num
  alpha := by
    have hlen : (data.take NIVONA_ALPHA_MAX).length = min data.length NIVONA_ALPHA_MAX := by
      rw [List.length_take, Nat.min_comm]
    have htake : data.take (min data.length NIVONA_ALPHA_MAX) = data.take NIVONA_ALPHA_MAX := by
      rw [List.take_eq_take_iff]
      omega
    have hcopy (buf : Vector UInt8 NIVONA_ALPHA_MAX) :
        (copyInto buf (data.take (min data.length NIVONA_ALPHA_MAX))).toList.take
          (min data.length NIVONA_ALPHA_MAX) = data.take NIVONA_ALPHA_MAX := by
      rw [htake, ← hlen]
      exact toList_copyInto buf _ (List.length_take_le _ _)
    refine (SlotArray.slots_write t.alpha id (data.take NIVONA_ALPHA_MAX) ?_ ?_).trans
      (congrArg (SlotTable.write id (data.take NIVONA_ALPHA_MAX)) h.alpha)
    · intro e hused hid
      simp only [SlotArray.slot, hused, if_true, hid, AlphaEntry.bytes, hcopy]
    · intro e
      simp only [SlotArray.slot, if_true, AlphaEntry.bytes, hcopy]

theorem eraseNum (h : t.Represents s) (id : Int16) :
    (t.eraseNum id).Represents (nivonaStoreEraseNum s id) where
  num := (SlotArray.slots_erase t.num id fun _ => rfl).trans
    (congrArg (SlotTable.erase id) h.num)
  alpha := h.alpha

theorem nvsLoadAll (h : t.Represents s) (it : NvsIterator) (nvs : Nvs) :
    (t.nvsLoadAll it nvs).Represents (Nivona.nvsLoadAll it { s with nvs := nvs }) := by
  have hstart : t.Represents { s with nvs := nvs } := ⟨h.num, h.alpha⟩
  exact nvsLoadAll_related (R := RegisterTables.Represents) (fun _ _ id v hts => hts.setNumMem id v)
    (fun _ _ id data hts => hts.setAlphaMem id data) hstart it

/-- One operation. -/
theorem step (h : t.Represents s) (op : TableOp) : (t.step op).Represents (storageStep s op) := by
  cases op with
  | load it nvs => exact h.nvsLoadAll it nvs
  | setNumMem id value => exact h.setNumMem id value
  | setAlphaMem id data => exact h.setAlphaMem id data
  | eraseNum id => exact h.eraseNum id

end RegisterTables.Represents

/-! ## The slot tables implement the maps -/

structure Storage.Implements (s : Storage) (m : RegisterMaps) : Prop where
  num : s.num.Implements m.num
  alpha : s.alpha.Implements m.alpha

namespace Storage.Implements

variable {s : Storage} {m : RegisterMaps}

theorem setNumMem (h : s.Implements m) (id : Int16) (value : Int32) :
    (Nivona.setNumMem s id value).Implements (m.setNum id value) :=
  ⟨h.num.put id value, h.alpha⟩

theorem setAlphaMem (h : s.Implements m) (id : Int16) (data : List UInt8) :
    (Nivona.setAlphaMem s id data).Implements (m.setAlpha id data) :=
  ⟨h.num, h.alpha.put id (data.take 64)⟩

theorem nvsLoadAll (h : s.Implements m) (it : NvsIterator) (nvs : Nvs) :
    (Nivona.nvsLoadAll it { s with nvs := nvs }).Implements (m.step (.load it nvs)) := by
  have hstart : ({ s with nvs := nvs } : Storage).Implements m := ⟨h.num, h.alpha⟩
  exact nvsLoadAll_related (R := fun m s => Storage.Implements s m)
    (fun _ _ id v hms => hms.setNumMem id v) (fun _ _ id data hms => hms.setAlphaMem id data)
    hstart it

/-- One operation. -/
theorem step (h : s.Implements m) (op : TableOp) : (storageStep s op).Implements (m.step op) := by
  cases op with
  | load it nvs => exact h.nvsLoadAll it nvs
  | setNumMem id value => exact h.setNumMem id value
  | setAlphaMem id data => exact h.setAlphaMem id data
  | eraseNum id => exact ⟨h.num.remove id, h.alpha⟩

end Storage.Implements

/-! ## The arrays implement the maps -/

/-- The arrays implement the maps through the slot tables of a store. -/
def RegisterTables.Implements (t : RegisterTables) (m : RegisterMaps) : Prop :=
  ∃ s : Storage, t.Represents s ∧ s.Implements m

def RegisterTables.numUsed (t : RegisterTables) : ℕ := t.num.toList.countP NumEntry.used

def RegisterTables.alphaUsed (t : RegisterTables) : ℕ := t.alpha.toList.countP AlphaEntry.used

/-- Every read of the arrays is a read of the maps, and no id is held twice. -/
structure RegisterTables.Agrees (t : RegisterTables) (m : RegisterMaps) : Prop where
  num_unique : ∀ i j (hi : i < NUM_CAP) (hj : j < NUM_CAP), t.num[i].used = true →
    t.num[j].used = true → t.num[i].id = t.num[j].id → i = j
  alpha_unique : ∀ i j (hi : i < ALPHA_CAP) (hj : j < ALPHA_CAP), t.alpha[i].used = true →
    t.alpha[j].used = true → t.alpha[i].id = t.alpha[j].id → i = j
  getNum : ∀ id, t.getNum id = (m.num.lookup id).getD 0
  hasNum : ∀ id, t.hasNum id = (m.num.lookup id).isSome
  getAlpha : ∀ id max, t.getAlpha id max = ((m.alpha.lookup id).getD []).take max
  numUsed : t.numUsed = m.num.map.keys.card
  alphaUsed : t.alphaUsed = m.alpha.map.keys.card

/-- What one operation does to the numerical reads. -/
structure RegisterTables.NumLaws (t : RegisterTables) : Prop where
  write : ∀ id v, t.hasNum id = true ∨ t.numUsed < 256 →
    (t.setNumMem id v).getNum id = v ∧ (t.setNumMem id v).hasNum id = true
  write_other : ∀ id v id', id' ≠ id →
    (t.setNumMem id v).getNum id' = t.getNum id' ∧ (t.setNumMem id v).hasNum id' = t.hasNum id'
  full : ∀ id v, ¬(t.hasNum id = true ∨ t.numUsed < 256) → ∀ id',
    (t.setNumMem id v).getNum id' = t.getNum id' ∧ (t.setNumMem id v).hasNum id' = t.hasNum id'
  erase : ∀ id, (t.eraseNum id).getNum id = 0 ∧ (t.eraseNum id).hasNum id = false
  erase_other : ∀ id id', id' ≠ id →
    (t.eraseNum id).getNum id' = t.getNum id' ∧ (t.eraseNum id).hasNum id' = t.hasNum id'
  erase_frees : ∀ id, t.hasNum id = true → (t.eraseNum id).numUsed + 1 = t.numUsed

/-- Some entry in use holds the id. -/
def RegisterTables.HasAlpha (t : RegisterTables) (id : Int16) : Prop :=
  ∃ e ∈ t.alpha.toList, e.used = true ∧ e.id = id

/-- What one write does to the alphanumeric reads. -/
structure RegisterTables.AlphaLaws (t : RegisterTables) : Prop where
  write : ∀ id data max, t.HasAlpha id ∨ t.alphaUsed < 64 →
    (t.setAlphaMem id data).getAlpha id max = (data.take 64).take max
  write_other : ∀ id data id' max, id' ≠ id →
    (t.setAlphaMem id data).getAlpha id' max = t.getAlpha id' max
  full : ∀ id data, ¬(t.HasAlpha id ∨ t.alphaUsed < 64) → ∀ id' max,
    (t.setAlphaMem id data).getAlpha id' max = t.getAlpha id' max

namespace RegisterTables.Implements

variable {t : RegisterTables} {m : RegisterMaps}

theorem empty : RegisterTables.empty.Implements RegisterMaps.empty :=
  ⟨_, RegisterTables.Represents.empty Nvs.empty,
    { num := SlotTable.Implements.empty, alpha := SlotTable.Implements.empty }⟩

theorem step (h : t.Implements m) (op : TableOp) : (t.step op).Implements (m.step op) := by
  obtain ⟨s, hts, hsm⟩ := h
  exact ⟨storageStep s op, hts.step op, hsm.step op⟩

theorem run (ops : List TableOp) :
    (Runs.run RegisterTables.step RegisterTables.empty ops).Implements
      (Runs.run RegisterMaps.step RegisterMaps.empty ops) :=
  List.foldl_rel (r := RegisterTables.Implements) empty fun op _ _ _ h => h.step op

theorem agrees (h : t.Implements m) : t.Agrees m := by
  obtain ⟨s, hts, hsm⟩ := h
  constructor
  · intro i j hi hj
    exact SlotArray.eq_of_nodup (hts.num ▸ s.num.nodup) hi hj
  · intro i j hi hj
    exact SlotArray.eq_of_nodup (hts.alpha ▸ s.alpha.nodup) hi hj
  · intro id
    rw [hts.getNum, nivonaStoreGetNum, hsm.num]
  · intro id
    rw [hts.hasNum, nivonaStoreHasNum, hsm.num]
  · intro id max
    rw [hts.getAlpha, nivonaStoreGetAlpha_eq, hsm.alpha]
    cases m.alpha.lookup id with
    | none => simp
    | some data => rfl
  · rw [hsm.num.card_eq, ← hts.num, SlotArray.length_keys_slots]
    rfl
  · rw [hsm.alpha.card_eq, ← hts.alpha, SlotArray.length_keys_slots]
    rfl

/-- A write is accepted when the id is there or an entry is unused. -/
theorem accepts_num_iff (h : t.Implements m) (id : Int16) :
    m.num.Accepts id ↔ t.hasNum id = true ∨ t.numUsed < 256 := by
  rw [BoundedMap.Accepts, ← Finmap.lookup_isSome, h.agrees.hasNum, h.agrees.numUsed]
  rfl

theorem accepts_alpha_iff (h : t.Implements m) (id : Int16) :
    m.alpha.Accepts id ↔ t.HasAlpha id ∨ t.alphaUsed < 64 := by
  have hhas : t.HasAlpha id ↔ id ∈ m.alpha.map := by
    obtain ⟨s, hts, hsm⟩ := h
    rw [RegisterTables.HasAlpha, ← SlotArray.mem_keys_slots AlphaEntry.bytes, hts.alpha,
      ← SlotTable.get_isSome_iff, hsm.alpha, ← Finmap.lookup_isSome]
    rfl
  rw [BoundedMap.Accepts, hhas, h.agrees.alphaUsed]
  rfl

theorem numLaws (h : t.Implements m) : t.NumLaws := by
  have hset (id : Int16) (v : Int32) := (h.step (.setNumMem id v)).agrees
  have herase (id : Int16) := (h.step (.eraseNum id)).agrees
  have hkeep {t' : RegisterTables} {m' : RegisterMaps} (h' : t'.Agrees m') {id' : Int16}
      (hlookup : m'.num.lookup id' = m.num.lookup id') :
      t'.getNum id' = t.getNum id' ∧ t'.hasNum id' = t.hasNum id' := by
    rw [h'.getNum, h'.hasNum, h.agrees.getNum, h.agrees.hasNum, hlookup]
    exact ⟨rfl, rfl⟩
  constructor
  · intro id v haccepts
    have hlookup := BoundedMap.lookup_insert_self ((h.accepts_num_iff id).mpr haccepts) v
    have hget := (hset id v).getNum id
    have hhas := (hset id v).hasNum id
    rw [show (m.step (.setNumMem id v)).num.lookup id = some v from hlookup] at hget hhas
    exact ⟨hget, hhas⟩
  · intro id v id' hne
    exact hkeep (hset id v) (BoundedMap.lookup_insert_of_ne hne v)
  · intro id v hfull id'
    have hnot := mt (h.accepts_num_iff id).mp hfull
    exact hkeep (hset id v) (congrArg (·.lookup id') (BoundedMap.insert_of_not_accepts hnot v))
  · intro id
    have hget := (herase id).getNum id
    have hhas := (herase id).hasNum id
    rw [show (m.step (.eraseNum id)).num.lookup id = none from
      BoundedMap.lookup_erase_self m.num id] at hget hhas
    exact ⟨hget, hhas⟩
  · intro id id' hne
    exact hkeep (herase id) (BoundedMap.lookup_erase_of_ne hne)
  · intro id hhas
    have hmem : id ∈ m.num.map.keys := by
      rw [← BoundedMap.lookup_isSome_iff, ← h.agrees.hasNum]
      exact hhas
    have hcard : (m.step (.eraseNum id)).num.map.keys.card = m.num.map.keys.card - 1 := by
      change (m.num.map.erase id).keys.card = _
      rw [Finmap.keys_erase, Finset.card_erase_of_mem hmem]
    have hpos := Finset.card_pos.mpr ⟨id, hmem⟩
    have hused := (herase id).numUsed
    rw [h.agrees.numUsed]
    change (t.step (.eraseNum id)).numUsed + 1 = _
    omega

theorem alphaLaws (h : t.Implements m) : t.AlphaLaws := by
  have hset (id : Int16) (data : List UInt8) := (h.step (.setAlphaMem id data)).agrees
  constructor
  · intro id data max haccepts
    have hlookup := BoundedMap.lookup_insert_self ((h.accepts_alpha_iff id).mpr haccepts)
      (data.take 64)
    have hget := (hset id data).getAlpha id max
    rw [show (m.step (.setAlphaMem id data)).alpha.lookup id = some (data.take 64) from
      hlookup] at hget
    exact hget
  · intro id data id' max hne
    refine ((hset id data).getAlpha id' max).trans ?_
    rw [h.agrees.getAlpha]
    change ((BoundedMap.lookup (m.alpha.insert id _) id').getD []).take max = _
    rw [BoundedMap.lookup_insert_of_ne hne]
  · intro id data hfull id' max
    have hnot := mt (h.accepts_alpha_iff id).mp hfull
    refine ((hset id data).getAlpha id' max).trans ?_
    rw [h.agrees.getAlpha]
    change ((BoundedMap.lookup (m.alpha.insert id _) id').getD []).take max = _
    rw [BoundedMap.insert_of_not_accepts hnot]

end RegisterTables.Implements

/-- After any loads, writes and erasures from the empty tables the two arrays agree with the
finite maps of their capacities, and every further operation changes exactly its own id, or
nothing when a new id finds no room. -/
theorem register_tables_implement_maps (ops : List TableOp) :
    let t := Runs.run RegisterTables.step RegisterTables.empty ops
    t.Agrees (Runs.run RegisterMaps.step RegisterMaps.empty ops) ∧ t.NumLaws ∧ t.AlphaLaws :=
  have h := RegisterTables.Implements.run ops
  ⟨h.agrees, h.numLaws, h.alphaLaws⟩

end Nivona
