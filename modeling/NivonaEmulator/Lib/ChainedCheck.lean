import Mathlib.Data.List.Basic

/-!
# Chained checks

A check value is chained when it is folded over a text, symbol by symbol.  If
each step can be undone in the running value and in the symbol, two texts of
which exactly one symbol differs never have the same check value.
-/

namespace ChainedCheck

variable {σ β : Type*}

/-- A step that loses neither the running value nor the symbol. -/
structure Lossless (step : σ → β → σ) : Prop where
  value : ∀ b, Function.Injective fun s => step s b
  symbol : ∀ s, Function.Injective (step s)

/-- `xs` and `ys` have the same length and differ in position `i` only. -/
structure DifferAt (i : ℕ) (xs ys : List β) : Prop where
  length_eq : xs.length = ys.length
  lt_length : i < xs.length
  ne : xs[i]? ≠ ys[i]?
  eq_of_ne : ∀ j, j ≠ i → xs[j]? = ys[j]?

namespace DifferAt

variable {i : ℕ} {x y : β} {xs ys : List β}

/-- A difference in the head: the tails agree. -/
theorem head (h : DifferAt 0 (x :: xs) (y :: ys)) : x ≠ y ∧ xs = ys := by
  constructor
  · intro hxy
    apply h.ne
    simp [hxy]
  · apply List.ext_getElem?
    intro j
    simpa using h.eq_of_ne (j + 1) (Nat.succ_ne_zero j)

/-- A difference further on: the heads agree. -/
theorem tail (h : DifferAt (i + 1) (x :: xs) (y :: ys)) : x = y ∧ DifferAt i xs ys := by
  constructor
  · simpa using h.eq_of_ne 0 (Nat.succ_ne_zero i).symm
  · exact
      { length_eq := by simpa using h.length_eq
        lt_length := by simpa using h.lt_length
        ne := by simpa using h.ne
        eq_of_ne := fun j hj => by
          simpa using h.eq_of_ne (j + 1) (fun he => hj (Nat.succ.inj he)) }

end DifferAt

variable {step : σ → β → σ}

namespace Lossless

/-- The running value at the start can be recovered from the check value. -/
theorem foldl_injective (hstep : Lossless step) (text : List β) :
    Function.Injective fun s => text.foldl step s := by
  induction text with
  | nil => exact Function.injective_id
  | cons b rest ih =>
      intro s t hst
      exact hstep.value b (ih hst)

/-- One changed symbol changes the check value. -/
theorem foldl_ne (hstep : Lossless step) {i : ℕ} {xs ys : List β} (s : σ)
    (h : DifferAt i xs ys) : xs.foldl step s ≠ ys.foldl step s := by
  induction xs generalizing i s ys with
  | nil => exact absurd h.lt_length (Nat.not_lt_zero i)
  | cons x xs ih =>
      cases ys with
      | nil => exact absurd h.length_eq (Nat.succ_ne_zero xs.length)
      | cons y ys =>
          cases i with
          | zero =>
              obtain ⟨hxy, rfl⟩ := h.head
              intro heq
              exact hxy (hstep.symbol s (hstep.foldl_injective xs heq))
          | succ i =>
              obtain ⟨rfl, htail⟩ := h.tail
              exact ih (step s x) htail

end Lossless

end ChainedCheck
