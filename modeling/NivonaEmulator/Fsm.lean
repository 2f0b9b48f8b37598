import NivonaEmulator.Lib.BigEndian

/-!
# Machine status

The five fields of the HX status, and their wire format.
-/

namespace Nivona

def MANIP_NONE : UInt8 := 0
def MANIP_BU_REMOVED : UInt8 := 1
def MANIP_TRAYS_MISSING : UInt8 := 2
def MANIP_EMPTY_TRAYS : UInt8 := 3
def MANIP_FILL_WATER : UInt8 := 4
def MANIP_CLOSE_POWDER_LID : UInt8 := 5
def MANIP_FILL_POWDER : UInt8 := 6
def MANIP_MOVE_CUP : UInt8 := 11
def MANIP_FLUSH_REQUIRED : UInt8 := 20

structure Status where
  process : Int16
  subProcess : Int16
  info : UInt8
  manipulation : UInt8
  progress : Int16
  deriving DecidableEq, Repr

/-- Idle status of a family with the given READY code. -/
def Status.ready (processReady : Int16) : Status :=
  { process := processReady, subProcess := 0, info := 0
    manipulation := MANIP_NONE, progress := 0 }

/-- Big-endian bytes of a signed 16-bit value. -/
def putBe16 (v : Int16) : List UInt8 := BigEndian.bytes 2 v.toInt

/-- Big-endian bytes of a signed 32-bit value. -/
def putBe32 (v : Int32) : List UInt8 := BigEndian.bytes 4 v.toInt

/-- The leading two bytes as a signed value. -/
def be16I (p : List UInt8) : Int16 := Int16.ofInt (BigEndian.value (p.take 2))

/-- The leading four bytes as a signed value. -/
def be32I (p : List UInt8) : Int32 := Int32.ofInt (BigEndian.value (p.take 4))

/-- The eight status bytes: two codes, info, manipulation, progress. -/
def nivonaFsmPackStatus (s : Status) : List UInt8 :=
  putBe16 s.process ++ putBe16 s.subProcess ++ [s.info, s.manipulation] ++
    putBe16 s.progress

@[simp] theorem length_putBe16 (v : Int16) : (putBe16 v).length = 2 :=
  BigEndian.length_bytes 2 _

@[simp] theorem length_putBe32 (v : Int32) : (putBe32 v).length = 4 :=
  BigEndian.length_bytes 4 _

@[simp] theorem length_nivonaFsmPackStatus (s : Status) :
    (nivonaFsmPackStatus s).length = 8 := by
  simp [nivonaFsmPackStatus]

/-- A signed 16-bit value is read back from its bytes. -/
theorem be16I_putBe16_append (v : Int16) (rest : List UInt8) :
    be16I (putBe16 v ++ rest) = v := by
  have hlow := v.le_toInt
  have hhigh := v.toInt_lt
  rw [be16I, List.take_append_of_le_length (by simp), List.take_of_length_le (by simp),
    putBe16, ← Int16.toInt_inj, Int16.toInt_ofInt]
  exact BigEndian.bmod_value_bytes (by omega) (by omega)

/-- A signed 32-bit value is read back from its bytes. -/
theorem be32I_putBe32 (v : Int32) : be32I (putBe32 v) = v := by
  have hlow := v.le_toInt
  have hhigh := v.toInt_lt
  rw [be32I, List.take_of_length_le (by simp), putBe32, ← Int32.toInt_inj, Int32.toInt_ofInt]
  exact BigEndian.bmod_value_bytes (by omega) (by omega)

end Nivona
