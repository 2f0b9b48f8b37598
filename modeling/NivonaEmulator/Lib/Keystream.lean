import Mathlib.Data.List.Basic

/-!
# Keystream ciphers

A keystream cipher combines the input, symbol by symbol, with the output of a
generator that never looks at the data.  The generator is an arbitrary state
transformer, and the combining operation is only assumed to undo itself.
-/

namespace Keystream

variable {σ β : Type*}

/-- The generator state after `n` symbols. -/
def stateAt (next : σ → β × σ) : σ → ℕ → σ
  | s, 0 => s
  | s, n + 1 => stateAt next (next s).2 n

/-- The generator takes its last step last. -/
theorem stateAt_succ (next : σ → β × σ) (s : σ) (n : ℕ) :
    stateAt next s (n + 1) = (next (stateAt next s n)).2 := by
  induction n generalizing s with
  | zero => rfl
  | succ n ih => exact ih (next s).2

/-- What every step of the generator preserves holds of every state. -/
theorem stateAt_invariant {next : σ → β × σ} {P : σ → Prop}
    (hstep : ∀ s, P s → P (next s).2) {s : σ} (hinit : P s) (n : ℕ) :
    P (stateAt next s n) := by
  induction n with
  | zero => exact hinit
  | succ n ih =>
      rw [stateAt_succ]
      exact hstep _ ih

/-- The `n`-th symbol of the keystream. -/
def symbolAt (next : σ → β × σ) (s : σ) (n : ℕ) : β :=
  (next (stateAt next s n)).1

/-- Combine a text with the keystream that starts in state `s`. -/
def crypt (next : σ → β × σ) (combine : β → β → β) :
    σ → List β → List β
  | _, [] => []
  | s, x :: xs => combine x (next s).1 :: crypt next combine (next s).2 xs

section

variable (next : σ → β × σ) (combine : β → β → β)

@[simp] theorem crypt_nil (s : σ) : crypt next combine s [] = [] := rfl

@[simp] theorem crypt_cons (s : σ) (x : β) (xs : List β) :
    crypt next combine s (x :: xs) =
      combine x (next s).1 :: crypt next combine (next s).2 xs := rfl

@[simp] theorem length_crypt (s : σ) (xs : List β) :
    (crypt next combine s xs).length = xs.length := by
  induction xs generalizing s with
  | nil => rfl
  | cons x xs ih => simp [ih]

/-- Encrypting a prefix gives the prefix of the ciphertext. -/
theorem crypt_take (s : σ) (xs : List β) (n : ℕ) :
    crypt next combine s (xs.take n) = (crypt next combine s xs).take n := by
  induction xs generalizing s n with
  | nil => simp
  | cons x xs ih =>
      cases n with
      | zero => rfl
      | succ n => simp [ih]

/-- The `n`-th output symbol depends on the `n`-th input symbol only. -/
theorem getElem?_crypt (s : σ) (xs : List β) (n : ℕ) :
    (crypt next combine s xs)[n]? =
      xs[n]?.map fun x => combine x (symbolAt next s n) := by
  induction xs generalizing s n with
  | nil => simp
  | cons x xs ih =>
      cases n with
      | zero => rfl
      | succ n =>
          rw [crypt_cons, List.getElem?_cons_succ, ih]
          rfl

/-- Applying the cipher twice is the identity. -/
theorem crypt_crypt (hinv : ∀ x k, combine (combine x k) k = x)
    (s : σ) (xs : List β) :
    crypt next combine s (crypt next combine s xs) = xs := by
  induction xs generalizing s with
  | nil => rfl
  | cons x xs ih => simp [hinv, ih]

end

end Keystream
