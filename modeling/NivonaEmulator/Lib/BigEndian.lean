import Mathlib.Data.List.Basic
import Mathlib.Order.Nat
import Mathlib.Tactic.Ring

/-!
# Big-endian bytes

`bytes k z` are the low `k` bytes of the two's complement of an integer, most
significant first, and `value` is the unsigned number a byte string stands for.
-/

namespace BigEndian

/-- The low `k` bytes of `z`, most significant first. -/
def bytes : ℕ → ℤ → List UInt8
  | 0, _ => []
  | k + 1, z => UInt8.ofInt (z >>> (8 * k)) :: bytes k z

/-- Unsigned value of a byte string. -/
def value (bs : List UInt8) : ℕ :=
  bs.foldl (fun acc b => acc * 256 + b.toNat) 0

@[simp] theorem length_bytes (k : ℕ) (z : ℤ) : (bytes k z).length = k := by
  induction k with
  | zero => rfl
  | succ k ih => simp [bytes, ih]

theorem toNat_ofInt (z : ℤ) : ((UInt8.ofInt z).toNat : ℤ) = z % 256 := by
  have h0 : 0 ≤ z % 256 := Int.emod_nonneg z (by decide)
  have h1 : z % 256 < 256 := Int.emod_lt_of_pos z (by decide)
  rw [UInt8.ofInt, UInt8.toNat_ofNat_of_lt']
  · exact Int.toNat_of_nonneg h0
  · simp only [UInt8.size]
    omega

theorem foldl_value (bs : List UInt8) (acc : ℕ) :
    bs.foldl (fun acc b => acc * 256 + b.toNat) acc =
      acc * 256 ^ bs.length + value bs := by
  induction bs generalizing acc with
  | nil => simp [value]
  | cons b bs ih =>
      rw [value, List.foldl_cons, List.foldl_cons, ih, ih (0 * 256 + b.toNat)]
      rw [List.length_cons, Nat.pow_succ, Nat.add_mul, Nat.mul_assoc,
        Nat.mul_comm 256]
      simp [Nat.add_assoc]

theorem value_cons (b : UInt8) (bs : List UInt8) :
    value (b :: bs) = b.toNat * 256 ^ bs.length + value bs := by
  rw [value, List.foldl_cons, foldl_value]
  simp

/-- The bytes of an integer stand for it modulo `256 ^ k`. -/
theorem value_bytes (k : ℕ) (z : ℤ) : (value (bytes k z) : ℤ) = z % 256 ^ k := by
  induction k with
  | zero => rw [pow_zero, Int.emod_one, bytes, value]; rfl
  | succ k ih =>
      have hpow : ((2 ^ (8 * k) : ℕ) : ℤ) = 256 ^ k := by
        rw [Nat.pow_mul]
        simp
      have hpos : (0 : ℤ) < 256 ^ k := Int.pow_pos (by decide)
      rw [bytes, value_cons, length_bytes, Int.natCast_add, Int.natCast_mul,
        ih, toNat_ofInt, Int.shiftRight_eq_div_pow, hpow, Int.natCast_pow,
        Int.pow_succ]
      -- the quotient digit and the rest are the remainder modulo `m * 256`
      change z / 256 ^ k % 256 * 256 ^ k + z % 256 ^ k = z % (256 ^ k * 256)
      generalize (256 : ℤ) ^ k = m at hpos ⊢
      have hz : m * (z / m) + z % m = z := Int.mul_ediv_add_emod z m
      have hq : 256 * (z / m / 256) + z / m % 256 = z / m :=
        Int.mul_ediv_add_emod (z / m) 256
      have hr0 : 0 ≤ z % m := Int.emod_nonneg z (by omega)
      have hr1 : z % m < m := Int.emod_lt_of_pos z hpos
      have hd0 : 0 ≤ z / m % 256 := Int.emod_nonneg _ (by decide)
      have hd1 : z / m % 256 ≤ 255 := by omega
      refine ((Int.ediv_emod_unique (q := z / m / 256) (by omega)).mpr ⟨?_, ?_, ?_⟩).2.symm
      · calc
          z / m % 256 * m + z % m + m * 256 * (z / m / 256) =
              m * (256 * (z / m / 256) + z / m % 256) + z % m := by ring
          _ = z := by rw [hq, hz]
      · exact Int.add_nonneg (Int.mul_nonneg hd0 hpos.le) hr0
      · have := Int.mul_le_mul_of_nonneg_right hd1 hpos.le
        omega

/-- Reading the bytes as a signed number gives the integer back when it fits. -/
theorem bmod_value_bytes {k : ℕ} {z : ℤ} (hlow : -((256 ^ k : ℕ) / 2) ≤ z)
    (hhigh : z < (256 ^ k : ℕ) / 2) :
    Int.bmod (value (bytes k z)) (256 ^ k) = z := by
  have hcast : (256 : ℤ) ^ k = ((256 ^ k : ℕ) : ℤ) := by simp
  rw [value_bytes, hcast, Int.emod_bmod]
  exact Int.bmod_eq_of_le (by omega) (by omega)

end BigEndian
