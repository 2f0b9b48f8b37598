import Mathlib.Data.List.Basic

/-!
# Buffers with checked accesses

Arrays of a fixed length whose every access is checked: an index or a range
outside the array, or a difference of lengths below zero, gives no result.
What has a result has stayed inside.
-/

namespace CheckedBuffer

variable {α : Type*} {n : ℕ}

/-- Read one entry. -/
def load (buf : Vector α n) (i : ℕ) : Option α := buf[i]?

/-- Write one entry. -/
def store (buf : Vector α n) (i : ℕ) (x : α) : Option (Vector α n) :=
  if h : i < n then some (buf.set i x) else none

/-- Read a range. -/
def slice (buf : Vector α n) (start len : ℕ) : Option (List α) :=
  if start + len ≤ n then some ((buf.toList.drop start).take len) else none

/-- Write a range. -/
def copyTo (buf : Vector α n) (start : ℕ) (xs : List α) : Option (Vector α n) :=
  if h : start + xs.length ≤ n then
    some ⟨(buf.toList.take start ++ xs ++ buf.toList.drop (start + xs.length)).toArray, by
      simp only [List.size_toArray, List.length_append, List.length_take, List.length_drop,
        Vector.length_toList]
      omega⟩
  else none

/-- A difference of lengths. -/
def sub (a b : ℕ) : Option ℕ :=
  if b ≤ a then some (a - b) else none

theorem load_eq {buf : Vector α n} {i : ℕ} (h : i < n) : load buf i = some buf[i] :=
  Vector.getElem?_eq_getElem h

theorem store_eq {buf : Vector α n} {i : ℕ} (h : i < n) (x : α) :
    store buf i x = some (buf.set i x) := by
  rw [store, dif_pos h]

theorem load_set_self (buf : Vector α n) {i : ℕ} (h : i < n) (x : α) :
    load (buf.set i x) i = some x := by
  rw [load_eq h, Vector.getElem_set_self]

theorem load_set_ne (buf : Vector α n) {i j : ℕ} (h : i < n) (x : α) (hne : i ≠ j) :
    load (buf.set i x) j = load buf j := by
  rw [load, load, Vector.getElem?_set_ne h hne]

theorem slice_eq {buf : Vector α n} {start len : ℕ} (h : start + len ≤ n) :
    slice buf start len = some ((buf.toList.drop start).take len) := by
  rw [slice, if_pos h]

theorem sub_eq {a b : ℕ} (h : b ≤ a) : sub a b = some (a - b) := by
  rw [sub, if_pos h]

/-- A range that fits is written, and the rest of the array stays. -/
theorem copyTo_eq (buf : Vector α n) {start : ℕ} {xs : List α} (h : start + xs.length ≤ n) :
    ∃ buf', copyTo buf start xs = some buf' ∧
      buf'.toList = buf.toList.take start ++ xs ++ buf.toList.drop (start + xs.length) := by
  rw [copyTo, dif_pos h]
  exact ⟨_, rfl, by simp [Vector.toList]⟩

/-- What a copy to the start of the array leaves there. -/
theorem copyTo_start (buf : Vector α n) {xs : List α} (h : xs.length ≤ n) :
    ∃ buf', copyTo buf 0 xs = some buf' ∧
      ∃ rest, buf'.toList = xs ++ rest := by
  obtain ⟨buf', hcopy, hlist⟩ := copyTo_eq buf (show 0 + xs.length ≤ n by omega)
  exact ⟨buf', hcopy, buf.toList.drop xs.length, by rw [hlist]; simp⟩

/-- The first entries of a list, as far as the array has room. -/
theorem copyTo_take (buf : Vector α n) (xs : List α) :
    ∃ buf', copyTo buf 0 (xs.take n) = some buf' ∧ buf'.toList.take xs.length = xs.take n := by
  obtain ⟨buf', hcopy, rest, hlist⟩ := copyTo_start buf (List.length_take_le n xs)
  refine ⟨buf', hcopy, ?_⟩
  by_cases hroom : xs.length ≤ n
  · rw [List.take_of_length_le hroom] at hlist ⊢
    rw [hlist, List.take_left]
  · have hfull := congrArg List.length hlist
    rw [Vector.length_toList, List.length_append, List.length_take_of_le (by omega)] at hfull
    have hrest : rest = [] := List.eq_nil_of_length_eq_zero (by omega)
    rw [hlist, hrest, List.append_nil, List.take_of_length_le]
    rw [List.length_take]
    omega

/-- A length that is cut to `k` takes what `k` takes. -/
theorem take_cut (xs : List α) (k : ℕ) :
    xs.take (if k < xs.length then k else xs.length) = xs.take k := by
  split
  · rfl
  · rw [List.take_length, List.take_of_length_le (by omega)]

theorem length_take_cut (xs : List α) (k : ℕ) :
    (xs.take k).length = if k < xs.length then k else xs.length := by
  rw [List.length_take]
  split <;> omega

theorem take_set_last {l : List α} {i : ℕ} (x : α) (h : i < l.length) :
    (l.set i x).take (i + 1) = l.take i ++ [x] := by
  rw [List.take_add_one, List.take_set_of_le (Nat.le_refl i)]
  simp [h]

/-- Inside a prefix, ranges are those of the whole. -/
theorem drop_take_of_prefix (l : List α) {len start k : ℕ} (h : start + k ≤ len) :
    ((l.take len).drop start).take k = (l.drop start).take k := by
  rw [List.drop_take, List.take_take]
  congr 1
  omega

end CheckedBuffer
