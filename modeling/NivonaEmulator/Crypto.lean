import NivonaEmulator.Lib.Keystream
import Mathlib.Data.List.FinRange

/-!
# Frame cipher and handshake verifier

RC4 under the bundled master key, and the two-byte verifier of the handshake.
-/

namespace Nivona

open Keystream

/-! ## RC4 -/

/-- RC4 state: the 256-entry table and the two indices. -/
structure Rc4State where
  s : Vector UInt8 256
  i : UInt8
  j : UInt8

/-- `s[j]` for an 8-bit index. -/
def sbox (s : Vector UInt8 256) (j : UInt8) : UInt8 :=
  s.get j.toFin

/-- Exchange `s[i]` and `s[j]`. -/
def swapEntries (s : Vector UInt8 256) (i j : UInt8) : Vector UInt8 256 :=
  s.swap i.toNat j.toNat i.toNat_lt j.toNat_lt

/-- One round of the key schedule. -/
def keyScheduleRound (key : List UInt8) (st : Vector UInt8 256 × UInt8)
    (i : Fin 256) : Vector UInt8 256 × UInt8 :=
  let j := st.2 + st.1.get i + key.getD (i.val % key.length) 0
  (swapEntries st.1 (UInt8.ofNat i.val) j, j)

/-- The table before the key schedule. -/
def identityTable : Vector UInt8 256 :=
  Vector.ofFn fun i => UInt8.ofNat i.val

/-- State after the key schedule, with both output indices at zero. -/
def rc4Init (key : List UInt8) : Rc4State :=
  let st := (List.finRange 256).foldl (keyScheduleRound key) (identityTable, 0)
  { s := st.1, i := 0, j := 0 }

/-- One round of the output loop: the keystream byte and the next state. -/
def rc4Round (st : Rc4State) : UInt8 × Rc4State :=
  let ii := st.i + 1
  let jj := st.j + sbox st.s ii
  let s := swapEntries st.s ii jj
  (sbox s (sbox s ii + sbox s jj), { s := s, i := ii, j := jj })

/-- Encrypt or decrypt under a key. -/
def nivonaRc4 (key input : List UInt8) : List UInt8 :=
  crypt rc4Round (· ^^^ ·) (rc4Init key) input

/-- The bundled key, `NIV_060616_V10_1*9#3!4$6+4res-?3`. -/
def NIVONA_RC4_KEY : List UInt8 :=
  [0x4E, 0x49, 0x56, 0x5F, 0x30, 0x36, 0x30, 0x36,
   0x31, 0x36, 0x5F, 0x56, 0x31, 0x30, 0x5F, 0x31,
   0x2A, 0x39, 0x23, 0x33, 0x21, 0x34, 0x24, 0x36,
   0x2B, 0x34, 0x72, 0x65, 0x73, 0x2D, 0x3F, 0x33]

/-- The cipher under the bundled key. -/
def nivonaRc4WithMasterKey (input : List UInt8) : List UInt8 :=
  nivonaRc4 NIVONA_RC4_KEY input

/-- The `k`-th keystream byte of the bundled key. -/
def masterKeyByte (k : ℕ) : UInt8 :=
  symbolAt rc4Round (rc4Init NIVONA_RC4_KEY) k

/-- The `k`-th keystream byte of a key. -/
def keystreamByte (key : List UInt8) (k : ℕ) : UInt8 :=
  symbolAt rc4Round (rc4Init key) k

theorem xor_cancel (x k : UInt8) : (x ^^^ k) ^^^ k = x := by
  rw [UInt8.xor_assoc, UInt8.xor_self, UInt8.xor_zero]

@[simp] theorem length_nivonaRc4 (key input : List UInt8) :
    (nivonaRc4 key input).length = input.length :=
  length_crypt _ _ _ _

/-- Decryption is encryption. -/
@[simp] theorem nivonaRc4_involutive (key input : List UInt8) :
    nivonaRc4 key (nivonaRc4 key input) = input :=
  crypt_crypt _ _ xor_cancel _ _

theorem nivonaRc4_take (key input : List UInt8) (n : ℕ) :
    nivonaRc4 key (input.take n) = (nivonaRc4 key input).take n :=
  crypt_take _ _ _ _ _

theorem getElem?_nivonaRc4 (key input : List UInt8) (n : ℕ) :
    (nivonaRc4 key input)[n]? = input[n]?.map fun x => x ^^^ keystreamByte key n :=
  getElem?_crypt _ _ _ _ _

@[simp] theorem length_nivonaRc4WithMasterKey (input : List UInt8) :
    (nivonaRc4WithMasterKey input).length = input.length :=
  length_nivonaRc4 _ _

@[simp] theorem nivonaRc4WithMasterKey_involutive (input : List UInt8) :
    nivonaRc4WithMasterKey (nivonaRc4WithMasterKey input) = input :=
  nivonaRc4_involutive _ _

theorem nivonaRc4WithMasterKey_take (input : List UInt8) (n : ℕ) :
    nivonaRc4WithMasterKey (input.take n) =
      (nivonaRc4WithMasterKey input).take n :=
  nivonaRc4_take _ _ _

theorem getElem?_nivonaRc4WithMasterKey (input : List UInt8) (n : ℕ) :
    (nivonaRc4WithMasterKey input)[n]? =
      input[n]?.map fun x => x ^^^ masterKeyByte n :=
  getElem?_nivonaRc4 _ _ _

/-- The start of the bundled key's keystream. -/
theorem masterKey_keystream :
    nivonaRc4WithMasterKey [0, 0, 0, 0] = [0x1F, 0xC8, 0x01, 0x4D] := by
  decide +kernel

theorem masterKeyByte_zero : masterKeyByte 0 = 0x1F := by
  have h := getElem?_nivonaRc4WithMasterKey [0, 0, 0, 0] 0
  rw [masterKey_keystream] at h
  simpa using h.symm

theorem masterKeyByte_one : masterKeyByte 1 = 0xC8 := by
  have h := getElem?_nivonaRc4WithMasterKey [0, 0, 0, 0] 1
  rw [masterKey_keystream] at h
  simpa using h.symm

theorem masterKeyByte_two : masterKeyByte 2 = 0x01 := by
  have h := getElem?_nivonaRc4WithMasterKey [0, 0, 0, 0] 2
  rw [masterKey_keystream] at h
  simpa using h.symm

/-- Three bytes of ciphertext, byte by byte. -/
theorem nivonaRc4WithMasterKey_three (a b c : UInt8) :
    nivonaRc4WithMasterKey [a, b, c] = [a ^^^ 0x1F, b ^^^ 0xC8, c ^^^ 0x01] := by
  rw [← masterKeyByte_zero, ← masterKeyByte_one, ← masterKeyByte_two]
  apply List.ext_getElem?
  intro n
  rw [getElem?_nivonaRc4WithMasterKey]
  match n with
  | 0 => rfl
  | 1 => rfl
  | 2 => rfl
  | n + 3 => rfl

/-! ## Handshake verifier -/

set_option maxRecDepth 4000 in
/-- Substitution table of the verifier. -/
def NIVONA_HU_TABLE : Vector UInt8 256 :=
  #v[0x62, 0x06, 0x55, 0x96, 0x24, 0x17, 0x70, 0xA4, 0x87, 0xCF, 0xA9, 0x05, 0x1A, 0x40, 0xA5, 0xDB,
     0x3D, 0x14, 0x44, 0x59, 0x82, 0x3F, 0x34, 0x66, 0x18, 0xE5, 0x84, 0xF5, 0x50, 0xD8, 0xC3, 0x73,
     0x5A, 0xA8, 0x9C, 0xCB, 0xB1, 0x78, 0x02, 0xBE, 0xBC, 0x07, 0x64, 0xB9, 0xAE, 0xF3, 0xA2, 0x0A,
     0xED, 0x12, 0xFD, 0xE1, 0x08, 0xD0, 0xAC, 0xF4, 0xFF, 0x7E, 0x65, 0x4F, 0x91, 0xEB, 0xE4, 0x79,
     0x7B, 0xFB, 0x43, 0xFA, 0xA1, 0x00, 0x6B, 0x61, 0xF1, 0x6F, 0xB5, 0x52, 0xF9, 0x21, 0x45, 0x37,
     0x3B, 0x99, 0x1D, 0x09, 0xD5, 0xA7, 0x54, 0x5D, 0x1E, 0x2E, 0x5E, 0x4B, 0x97, 0x72, 0x49, 0xDE,
     0xC5, 0x60, 0xD2, 0x2D, 0x10, 0xE3, 0xF8, 0xCA, 0x33, 0x98, 0xFC, 0x7D, 0x51, 0xCE, 0xD7, 0xBA,
     0x27, 0x9E, 0xB2, 0xBB, 0x83, 0x88, 0x01, 0x31, 0x32, 0x11, 0x8D, 0x5B, 0x2F, 0x81, 0x3C, 0x63,
     0x9A, 0x23, 0x56, 0xAB, 0x69, 0x22, 0x26, 0xC8, 0x93, 0x3A, 0x4D, 0x76, 0xAD, 0xF6, 0x4C, 0xFE,
     0x85, 0xE8, 0xC4, 0x90, 0xC6, 0x7C, 0x35, 0x04, 0x6C, 0x4A, 0xDF, 0xEA, 0x86, 0xE6, 0x9D, 0x8B,
     0xBD, 0xCD, 0xC7, 0x80, 0xB0, 0x13, 0xD3, 0xEC, 0x7F, 0xC0, 0xE7, 0x46, 0xE9, 0x58, 0x92, 0x2C,
     0xB7, 0xC9, 0x16, 0x53, 0x0D, 0xD6, 0x74, 0x6D, 0x9F, 0x20, 0x5F, 0xE2, 0x8C, 0xDC, 0x39, 0x0C,
     0xDD, 0x1F, 0xD1, 0xB6, 0x8F, 0x5C, 0x95, 0xB8, 0x94, 0x3E, 0x71, 0x41, 0x25, 0x1B, 0x6A, 0xA6,
     0x03, 0x0E, 0xCC, 0x48, 0x15, 0x29, 0x38, 0x42, 0x1C, 0xC1, 0x28, 0xD9, 0x19, 0x36, 0xB3, 0x75,
     0xEE, 0x57, 0xF0, 0x9B, 0xB4, 0xAA, 0xF2, 0xD4, 0xBF, 0xA3, 0x4E, 0xDA, 0x89, 0xC2, 0xAF, 0x6E,
     0x2B, 0x77, 0xE0, 0x47, 0x7A, 0x8E, 0x2A, 0xA0, 0x68, 0x30, 0xF7, 0x67, 0x0F, 0x0B, 0x8A, 0xEF]

/-- Fold a window of bytes through the table. -/
def huFold (s : UInt8) (window : List UInt8) : UInt8 :=
  window.foldl (fun s b => sbox NIVONA_HU_TABLE (s ^^^ b)) s

/-- The two verifier bytes over `buf[start..start+count)`. -/
def nivonaHuVerifier (buf : List UInt8) (start count : ℕ) : List UInt8 :=
  let first := buf.getD start 0
  let rest := (buf.drop (start + 1)).take (count - 1)
  [huFold (sbox NIVONA_HU_TABLE first) rest + 0x5D,
   huFold (sbox NIVONA_HU_TABLE (first + 1)) rest + 0xA7]

@[simp] theorem length_nivonaHuVerifier (buf : List UInt8) (start count : ℕ) :
    (nivonaHuVerifier buf start count).length = 2 := rfl

example : nivonaHuVerifier [0xB3, 0x89, 0x00, 0x48] 0 4 = [0xD7, 0xAA] := by
  decide +kernel

end Nivona
