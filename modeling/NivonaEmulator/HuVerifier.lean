import NivonaEmulator.Crypto
import NivonaEmulator.Lib.ChainedCheck
import Mathlib.Data.Fintype.EquivFin

/-!
# What the handshake verifier detects

The substitution table is a permutation, so the fold of the verifier loses
neither its running byte nor the byte it reads.
-/

namespace Nivona

open ChainedCheck

/-- The bytes of a list, as the set bits of one number. -/
def marks : List UInt8 → ℕ
  | [] => 0
  | b :: bs => 1 <<< b.toNat ||| marks bs

theorem testBit_marks (bs : List UInt8) (b : UInt8) :
    (marks bs).testBit b.toNat = true ↔ b ∈ bs := by
  induction bs with
  | nil => simp [marks]
  | cons a bs ih =>
      rw [marks, Nat.testBit_or, Bool.or_eq_true, ih, Nat.one_shiftLeft, Nat.testBit_two_pow,
        decide_eq_true_eq, UInt8.toNat_inj, List.mem_cons, eq_comm]

/-- Every byte occurs in the substitution table. -/
theorem mem_NIVONA_HU_TABLE (b : UInt8) : b ∈ NIVONA_HU_TABLE.toList := by
  have hall : marks NIVONA_HU_TABLE.toList = 2 ^ 256 - 1 := by decide +kernel
  rw [← testBit_marks, hall, Nat.testBit_two_pow_sub_one]
  simpa using b.toNat_lt

/-- The substitution table is a permutation. -/
theorem sbox_NIVONA_HU_TABLE_injective : Function.Injective (sbox NIVONA_HU_TABLE) := by
  have hsurj : Function.Surjective fun i : Fin 256 => (NIVONA_HU_TABLE.get i).toFin := by
    intro v
    obtain ⟨k, hk, hb⟩ := List.getElem_of_mem (mem_NIVONA_HU_TABLE (UInt8.ofFin v))
    refine ⟨⟨k, by simpa using hk⟩, ?_⟩
    have hget : NIVONA_HU_TABLE.get ⟨k, by simpa using hk⟩ = UInt8.ofFin v := by
      simpa [Vector.get] using hb
    exact congrArg UInt8.toFin hget
  have hinj := Finite.injective_iff_surjective.mpr hsurj
  intro a b hab
  exact UInt8.toFin_inj.mp (hinj (congrArg UInt8.toFin hab))

/-- One step of the fold. -/
def huStep (s b : UInt8) : UInt8 :=
  sbox NIVONA_HU_TABLE (s ^^^ b)

theorem huFold_eq (s : UInt8) (window : List UInt8) : huFold s window = window.foldl huStep s := rfl

theorem huStep_lossless : Lossless huStep where
  value b := by
    intro s t hst
    have hxor : s ^^^ b = t ^^^ b := sbox_NIVONA_HU_TABLE_injective hst
    rw [← xor_cancel s b, hxor, xor_cancel]
  symbol s := by
    intro b c hbc
    have hxor : s ^^^ b = s ^^^ c := sbox_NIVONA_HU_TABLE_injective hbc
    rw [UInt8.xor_comm s b, UInt8.xor_comm s c] at hxor
    rw [← xor_cancel b s, hxor, xor_cancel]

/-- The window that the verifier reads. -/
def huWindow (buf : List UInt8) (start count : ℕ) : List UInt8 :=
  (buf.drop start).take count

theorem getElem?_huWindow (buf : List UInt8) (start count k : ℕ) (hk : k < count) :
    (huWindow buf start count)[k]? = buf[start + k]? := by
  simp [huWindow, hk]

/-- Both folds run over the window: the first byte sets them off. -/
theorem nivonaHuVerifier_eq (buf : List UInt8) (start count : ℕ) (hcount : 1 ≤ count)
    (hin : start + count ≤ buf.length) :
    ∃ first rest, huWindow buf start count = first :: rest ∧
      nivonaHuVerifier buf start count =
        [huFold (sbox NIVONA_HU_TABLE first) rest + 0x5D,
          huFold (sbox NIVONA_HU_TABLE (first + 1)) rest + 0xA7] := by
  have hstart : start < buf.length := by omega
  obtain ⟨n, rfl⟩ : ∃ n, count = n + 1 := ⟨count - 1, by omega⟩
  refine ⟨buf[start], (buf.drop (start + 1)).take n, ?_, ?_⟩
  · rw [huWindow, List.drop_eq_getElem_cons hstart, List.take_succ_cons]
  · simp [nivonaHuVerifier, List.getD_eq_getElem?_getD, List.getElem?_eq_getElem hstart]

/-- Changing one byte of the window changes a fold, whatever permutation the first byte
goes through. -/
theorem huFold_ne {entry : UInt8 → UInt8} (hentry : Function.Injective entry) {i : ℕ}
    {first first' : UInt8} {rest rest' : List UInt8}
    (h : DifferAt i (first :: rest) (first' :: rest')) :
    huFold (sbox NIVONA_HU_TABLE (entry first)) rest ≠
      huFold (sbox NIVONA_HU_TABLE (entry first')) rest' := by
  rw [huFold_eq, huFold_eq]
  cases i with
  | zero =>
      obtain ⟨hfirst, rfl⟩ := h.head
      intro heq
      exact hfirst
        (hentry (sbox_NIVONA_HU_TABLE_injective (huStep_lossless.foldl_injective rest heq)))
  | succ i =>
      obtain ⟨rfl, hrest⟩ := h.tail
      exact huStep_lossless.foldl_ne _ hrest

/-- Two buffers agree in every byte of the window except at `i`. -/
structure WindowDiffersAt (i : ℕ) (buf buf' : List UInt8) (start count : ℕ) : Prop where
  start_le : start ≤ i
  lt_end : i < start + count
  ne : buf[i]? ≠ buf'[i]?
  eq_of_ne : ∀ j, start ≤ j → j < start + count → j ≠ i → buf[j]? = buf'[j]?

theorem WindowDiffersAt.differAt {i start count : ℕ} {buf buf' : List UInt8}
    (h : WindowDiffersAt i buf buf' start count) (hin : start + count ≤ buf.length)
    (hin' : start + count ≤ buf'.length) :
    DifferAt (i - start) (huWindow buf start count) (huWindow buf' start count) := by
  have hlow := h.start_le
  have hhigh := h.lt_end
  have hback : start + (i - start) = i := by omega
  constructor
  · simp only [huWindow, List.length_take, List.length_drop]
    omega
  · simp only [huWindow, List.length_take, List.length_drop]
    omega
  · rw [getElem?_huWindow _ _ _ _ (by omega), getElem?_huWindow _ _ _ _ (by omega), hback]
    exact h.ne
  · intro j hj
    rcases lt_or_ge j count with hlt | hge
    · rw [getElem?_huWindow _ _ _ _ hlt, getElem?_huWindow _ _ _ _ hlt]
      exact h.eq_of_ne _ (by omega) (by omega) (by omega)
    · rw [List.getElem?_eq_none (by simp [huWindow]; omega),
        List.getElem?_eq_none (by simp [huWindow]; omega)]

/-- The verifier reads the window only. -/
theorem nivonaHuVerifier_congr {buf buf' : List UInt8} {start count : ℕ} (hcount : 1 ≤ count)
    (hin : start + count ≤ buf.length) (hin' : start + count ≤ buf'.length)
    (hsame : ∀ j, start ≤ j → j < start + count → buf[j]? = buf'[j]?) :
    nivonaHuVerifier buf start count = nivonaHuVerifier buf' start count := by
  obtain ⟨first, rest, hwindow, hvalue⟩ := nivonaHuVerifier_eq buf start count hcount hin
  obtain ⟨first', rest', hwindow', hvalue'⟩ := nivonaHuVerifier_eq buf' start count hcount hin'
  have hwindows : huWindow buf start count = huWindow buf' start count := by
    apply List.ext_getElem?
    intro k
    rcases lt_or_ge k count with hlt | hge
    · rw [getElem?_huWindow _ _ _ _ hlt, getElem?_huWindow _ _ _ _ hlt]
      exact hsame _ (by omega) (by omega)
    · rw [List.getElem?_eq_none (by simp [huWindow]; omega),
        List.getElem?_eq_none (by simp [huWindow]; omega)]
  rw [hwindow, hwindow'] at hwindows
  obtain ⟨rfl, rfl⟩ := List.cons.inj hwindows
  rw [hvalue, hvalue']

/-- One changed byte in the window changes both bytes of the verifier, and bytes outside the
window change neither. -/
theorem nivonaHuVerifier_detects (buf buf' : List UInt8) (start count : ℕ) (hcount : 1 ≤ count)
    (hin : start + count ≤ buf.length) (hin' : start + count ≤ buf'.length) :
    (∀ i, WindowDiffersAt i buf buf' start count →
      (nivonaHuVerifier buf start count)[0]? ≠ (nivonaHuVerifier buf' start count)[0]? ∧
        (nivonaHuVerifier buf start count)[1]? ≠ (nivonaHuVerifier buf' start count)[1]?) ∧
      ((∀ j, start ≤ j → j < start + count → buf[j]? = buf'[j]?) →
        nivonaHuVerifier buf start count = nivonaHuVerifier buf' start count) := by
  refine ⟨fun i hi => ?_, nivonaHuVerifier_congr hcount hin hin'⟩
  obtain ⟨first, rest, hwindow, hvalue⟩ := nivonaHuVerifier_eq buf start count hcount hin
  obtain ⟨first', rest', hwindow', hvalue'⟩ := nivonaHuVerifier_eq buf' start count hcount hin'
  have hdiffer := hi.differAt hin hin'
  rw [hwindow, hwindow'] at hdiffer
  have hid : Function.Injective fun b : UInt8 => b := Function.injective_id
  have hnext : Function.Injective fun b : UInt8 => b + 1 :=
    fun _ _ h => UInt8.add_left_inj 1 |>.mp h
  rw [hvalue, hvalue']
  constructor
  · have hfold := huFold_ne hid hdiffer
    simpa using hfold
  · have hfold := huFold_ne hnext hdiffer
    simpa using hfold

theorem nivonaHuVerifier_detects_seed :
    (nivonaHuVerifier [0xB3, 0x89, 0x00, 0x48] 0 4)[0]? ≠
        (nivonaHuVerifier [0xB3, 0x8A, 0x00, 0x48] 0 4)[0]? ∧
      (nivonaHuVerifier [0xB3, 0x89, 0x00, 0x48] 0 4)[1]? ≠
        (nivonaHuVerifier [0xB3, 0x8A, 0x00, 0x48] 0 4)[1]? :=
  (nivonaHuVerifier_detects _ _ 0 4 (by decide) (by decide) (by decide)).1 1
    { start_le := by decide
      lt_end := by decide
      ne := by decide
      eq_of_ne := by decide }

end Nivona
