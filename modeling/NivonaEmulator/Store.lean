import NivonaEmulator.Families
import NivonaEmulator.Lib.Decimal
import NivonaEmulator.Lib.SlotTable
import NivonaEmulator.Nvs

/-!
# Register store

The numerical and alphanumeric registers: two slot tables in memory and their
copies in the namespaces `niv_num` and `niv_alpha`.
-/

namespace Nivona

def NIVONA_ALPHA_MAX : ℕ := 64
def NUM_CAP : ℕ := 256
def ALPHA_CAP : ℕ := 64

/-- Flash, the two register tables, and the open flag of the shared batch. -/
structure Storage where
  nvs : Nvs
  num : SlotTable Int16 Int32 NUM_CAP
  alpha : SlotTable Int16 (List UInt8) ALPHA_CAP
  batchOpen : Bool

/-- Decimal key of a register id, in a buffer of eight characters. -/
def makeKey (id : Int16) : NvsKey :=
  (Decimal.format id.toInt).take 7

/-- Register id of an entry key. -/
def idOfKey (key : NvsKey) : Int16 :=
  Int16.ofInt (Decimal.parse key)

/-! ## Numerical registers -/

def nivonaStoreGetNum (s : Storage) (id : Int16) : Int32 :=
  (s.num.get id).getD 0

def nivonaStoreHasNum (s : Storage) (id : Int16) : Bool :=
  (s.num.get id).isSome

/-- Memory-only update; a full table drops a new id. -/
def setNumMem (s : Storage) (id : Int16) (value : Int32) : Storage :=
  { s with num := s.num.put id value }

def nivonaStoreSetNum (s : Storage) (id : Int16) (value : Int32) : Storage :=
  let s := setNumMem s id value
  { s with nvs := s.nvs.set .num (makeKey id) (.i32 value) }

def nivonaStoreEraseNum (s : Storage) (id : Int16) : Storage :=
  { s with
    num := s.num.remove id
    nvs := s.nvs.eraseKey .num (makeKey id) }

/-! ## Batched writes -/

/-- Open the shared batch; opening also creates the namespace. -/
def nivonaStoreBatchBegin (s : Storage) : Storage :=
  { s with
    batchOpen := true
    nvs := Function.update s.nvs .num (some (s.nvs.openReadwrite .num)) }

def nivonaStoreBatchSetNum (s : Storage) (id : Int16) (value : Int32) : Storage :=
  let s := setNumMem s id value
  if s.batchOpen then
    { s with nvs := s.nvs.set .num (makeKey id) (.i32 value) }
  else s

def nivonaStoreBatchEnd (s : Storage) : Storage :=
  { s with batchOpen := false }

/-! ## Alphanumeric registers -/

/-- At most `max` bytes of a register. -/
def nivonaStoreGetAlpha (s : Storage) (id : Int16) (max : ℕ) : List UInt8 :=
  match s.alpha.get id with
  | some data => data.take max
  | none => []

theorem nivonaStoreGetAlpha_eq (s : Storage) (id : Int16) (max : ℕ) :
    nivonaStoreGetAlpha s id max = ((s.alpha.get id).map (List.take max)).getD [] := by
  rw [nivonaStoreGetAlpha]
  cases s.alpha.get id <;> rfl

/-- Memory-only update; a full table drops a new id. -/
def setAlphaMem (s : Storage) (id : Int16) (data : List UInt8) : Storage :=
  { s with alpha := s.alpha.put id (data.take NIVONA_ALPHA_MAX) }

def nivonaStoreSetAlpha (s : Storage) (id : Int16) (data : List UInt8) : Storage :=
  let data := data.take NIVONA_ALPHA_MAX
  let s := setAlphaMem s id data
  { s with nvs := s.nvs.set .alpha (makeKey id) (.blob data) }

/-! ## Boot -/

def NvsValue.isI32 : NvsValue → Bool
  | .i32 _ => true
  | _ => false

def NvsValue.isBlob : NvsValue → Bool
  | .blob _ => true
  | _ => false

/-- Load one numerical entry into memory. -/
def loadNum (s : Storage) (key : NvsKey) : Storage :=
  match s.nvs.getI32 .num key with
  | some v => setNumMem s (idOfKey key) v
  | none => s

/-- Load one alphanumeric entry into memory. -/
def loadAlpha (s : Storage) (key : NvsKey) : Storage :=
  match s.nvs.getBlob .alpha key NIVONA_ALPHA_MAX with
  | some data => setAlphaMem s (idOfKey key) data
  | none => s

/-- Load every stored register, without writing it back. -/
def nvsLoadAll (it : NvsIterator) (s : Storage) : Storage :=
  let s := (s.nvs.entryFind it .num NvsValue.isI32).foldl loadNum s
  (s.nvs.entryFind it .alpha NvsValue.isBlob).foldl loadAlpha s

/-- `Profile 1` to `Profile 4`. -/
def profileName (i : ℕ) : List UInt8 :=
  [0x50, 0x72, 0x6F, 0x66, 0x69, 0x6C, 0x65, 0x20, UInt8.ofNat (0x31 + i)]

/-- Placeholder id of a profile name. -/
def profileId (i : ℕ) : Int16 :=
  Int16.ofNat (0x0100 + i)

/-- Seed a numerical register that is absent. -/
def seedNum (s : Storage) (id : Int16) (value : Int32) : Storage :=
  if nivonaStoreHasNum s id then s else nivonaStoreSetNum s id value

def PCT_IDS : List Int16 := [600, 610, 620, 640]
def WARN_IDS : List Int16 := [601, 611, 621, 641]

/-- The profile names are written on every boot; numerical registers only when
they are absent. -/
def seedDefaults (stats : Stats) (s : Storage) : Storage :=
  let s := (List.range 4).foldl
    (fun s i => nivonaStoreSetAlpha s (profileId i) (profileName i)) s
  let s := PCT_IDS.foldl (fun s id => seedNum s id 100) s
  let s := WARN_IDS.foldl (fun s id => seedNum s id 0) s
  if stats.filterDepId ≠ 0 then seedNum s stats.filterDepId 0 else s

/-- Empty tables, then the stored registers, then the defaults. -/
def nivonaStoreInit (it : NvsIterator) (stats : Stats) (nvs : Nvs) : Storage :=
  seedDefaults stats (nvsLoadAll it
    { nvs := nvs, num := SlotTable.empty, alpha := SlotTable.empty, batchOpen := false })

/-! ## Keys -/

/-- Every register id fits the key buffer. -/
theorem makeKey_eq_format (id : Int16) : makeKey id = Decimal.format id.toInt := by
  have hlow := id.le_toInt
  have hhigh := id.toInt_lt
  have hlen : (Decimal.format id.toInt).length ≤ 5 + 1 :=
    Decimal.length_format_le (by decide) (by omega)
  exact List.take_of_length_le (by omega)

@[simp] theorem idOfKey_makeKey (id : Int16) : idOfKey (makeKey id) = id := by
  rw [idOfKey, makeKey_eq_format, Decimal.parse_format, Int16.ofInt_toInt]

theorem makeKey_injective : Function.Injective makeKey :=
  Function.LeftInverse.injective idOfKey_makeKey

end Nivona
