import Mathlib.Data.List.Basic

/-!
# Cutting a list into chunks

`chunks n xs` takes `n` elements at a time until the list is used up.
-/

namespace Chunks

variable {α : Type*}

/-- At most `fuel` rounds of the chunk loop. -/
def chunksFuel (n : ℕ) : ℕ → List α → List (List α)
  | 0, _ => []
  | _ + 1, [] => []
  | fuel + 1, x :: xs =>
      (x :: xs).take n :: chunksFuel n fuel ((x :: xs).drop n)

/-- Pieces of length `n`, and a shorter last one. -/
def chunks (n : ℕ) (xs : List α) : List (List α) := chunksFuel n xs.length xs

/-- The fuel of `chunks` is enough to use up the list. -/
theorem flatten_chunksFuel {n : ℕ} (hn : 0 < n) (fuel : ℕ) (xs : List α)
    (hfuel : xs.length ≤ fuel) : (chunksFuel n fuel xs).flatten = xs := by
  induction fuel generalizing xs with
  | zero => simpa [chunksFuel] using (List.length_eq_zero_iff.mp (by omega)).symm
  | succ fuel ih =>
      cases xs with
      | nil => rfl
      | cons x xs =>
          have hrest : ((x :: xs).drop n).length ≤ fuel := by
            rw [List.length_drop]
            omega
          rw [chunksFuel, List.flatten_cons, ih _ hrest, List.take_append_drop]

@[simp] theorem flatten_chunks {n : ℕ} (hn : 0 < n) (xs : List α) :
    (chunks n xs).flatten = xs :=
  flatten_chunksFuel hn _ xs (Nat.le_refl _)

theorem mem_chunksFuel {n : ℕ} (hn : 0 < n) {fuel : ℕ} {xs c : List α}
    (h : c ∈ chunksFuel n fuel xs) : c ≠ [] ∧ c.length ≤ n := by
  induction fuel generalizing xs with
  | zero => simp [chunksFuel] at h
  | succ fuel ih =>
      cases xs with
      | nil => simp [chunksFuel] at h
      | cons x xs =>
          rcases List.mem_cons.mp h with rfl | h
          · refine ⟨?_, List.length_take_le n _⟩
            rw [Ne, List.take_eq_nil_iff]
            simp [Nat.ne_of_gt hn]
          · exact ih h

/-- Every chunk is non-empty and no longer than `n`. -/
theorem mem_chunks {n : ℕ} (hn : 0 < n) {xs c : List α} (h : c ∈ chunks n xs) :
    c ≠ [] ∧ c.length ≤ n :=
  mem_chunksFuel hn h

/-- The number of chunks depends on the length of the list alone. -/
theorem length_chunksFuel_congr {β : Type*} (n fuel : ℕ) {xs : List α} {ys : List β}
    (h : xs.length = ys.length) :
    (chunksFuel n fuel xs).length = (chunksFuel n fuel ys).length := by
  induction fuel generalizing xs ys with
  | zero => rfl
  | succ fuel ih =>
      rcases xs with _ | ⟨x, xs⟩ <;> rcases ys with _ | ⟨y, ys⟩
      · rfl
      · exact absurd h (by simp)
      · exact absurd h (by simp)
      · rw [chunksFuel, chunksFuel, List.length_cons, List.length_cons,
          ih (by rw [List.length_drop, List.length_drop, h])]

theorem length_chunks_congr {β : Type*} (n : ℕ) {xs : List α} {ys : List β}
    (h : xs.length = ys.length) : (chunks n xs).length = (chunks n ys).length := by
  rw [chunks, chunks, h]
  exact length_chunksFuel_congr n _ h

/-- A short list is one chunk. -/
theorem chunks_of_length_le {n : ℕ} {xs : List α} (hne : xs ≠ [])
    (hlen : xs.length ≤ n) : chunks n xs = [xs] := by
  cases xs with
  | nil => exact absurd rfl hne
  | cons x xs =>
      rw [chunks, List.length_cons, chunksFuel, List.take_of_length_le hlen,
        List.drop_eq_nil_of_le hlen]
      cases xs <;> rfl

/-- A long list is cut at least once. -/
theorem two_le_length_chunks {n : ℕ} (hn : 0 < n) {xs : List α} (hlen : n < xs.length) :
    2 ≤ (chunks n xs).length := by
  by_contra hlt
  have hflat := flatten_chunks hn xs
  rcases hc : chunks n xs with _ | ⟨c, _ | ⟨d, rest⟩⟩
  · rw [hc] at hflat
    simp [← hflat] at hlen
  · have hmem := mem_chunks hn (show c ∈ chunks n xs by simp [hc])
    rw [hc] at hflat
    simp only [List.flatten_cons, List.flatten_nil, List.append_nil] at hflat
    rw [hflat] at hmem
    omega
  · rw [hc] at hlt
    simp at hlt

end Chunks
