import NivonaEmulator.Lib.CheckedBuffer
import NivonaEmulator.Lib.Keystream

/-!
# Keystream ciphers on a buffer

The loop that encrypts one range of a buffer into another, symbol by symbol,
with every access checked.  The ranges may be one and the same: as long as no
symbol is read after its place has been written, the loop computes what the
cipher computes on lists.
-/

namespace Keystream

open CheckedBuffer

universe u

variable {σ β : Type u} {n : ℕ}

/-- One round: symbol `k` is read at `src + k` and written, combined, at `dst + k`. -/
def loopRound (next : σ → β × σ) (combine : β → β → β) (src dst : ℕ)
    (r : σ × Vector β n) (k : ℕ) : Option (σ × Vector β n) := do
  let x ← load r.2 (src + k)
  let buf ← store r.2 (dst + k) (combine x (next r.1).1)
  some ((next r.1).2, buf)

/-- The first `k` rounds. -/
def loop (next : σ → β × σ) (combine : β → β → β) (src dst : ℕ)
    (r : σ × Vector β n) (k : ℕ) : Option (σ × Vector β n) :=
  (List.range k).foldlM (loopRound next combine src dst) r

/-- Rounds `0 .. len` read each symbol before its place is written. -/
def ReadsAhead (src dst len : ℕ) : Prop :=
  dst ≤ src ∨ src + len ≤ dst

/-- `buf'` is `buf` with the first `k` symbols at `src` encrypted to `dst`. -/
structure Encrypted (next : σ → β × σ) (combine : β → β → β) (src dst : ℕ) (s : σ)
    (buf buf' : Vector β n) (k : ℕ) : Prop where
  written : ∀ i < k, buf'[dst + i]? = buf[src + i]?.map fun x => combine x (symbolAt next s i)
  kept : ∀ i, i < dst ∨ dst + k ≤ i → buf'[i]? = buf[i]?

section

variable {next : σ → β × σ} {combine : β → β → β} {src dst len : ℕ}

theorem loop_succ (r : σ × Vector β n) (k : ℕ) :
    loop next combine src dst r (k + 1) =
      (loop next combine src dst r k).bind fun r' => loopRound next combine src dst r' k := by
  rw [loop, List.range_succ, List.foldlM_append]
  simp [loop]

theorem loopRound_eq (s : σ) (buf : Vector β n) {k : ℕ} (hsrc : src + k < n)
    (hdst : dst + k < n) :
    loopRound next combine src dst (s, buf) k =
      some ((next s).2, buf.set (dst + k) (combine buf[src + k] (next s).1)) := by
  simp [loopRound, load_eq hsrc, store_eq hdst]

/-- Inside the buffer no access fails, and the generator goes its own way. -/
theorem loop_state (s : σ) (buf : Vector β n) (hsrc : src + len ≤ n) (hdst : dst + len ≤ n)
    {k : ℕ} (hk : k ≤ len) :
    ∃ buf', loop next combine src dst (s, buf) k = some (stateAt next s k, buf') := by
  induction k with
  | zero => exact ⟨buf, rfl⟩
  | succ k ih =>
      obtain ⟨buf', hrun⟩ := ih (by omega)
      rw [loop_succ, hrun, Option.bind_some, stateAt_succ]
      exact ⟨_, loopRound_eq _ buf' (by omega) (by omega)⟩

/-- A round writes the next symbol, read from a place that is still as it was. -/
theorem Encrypted.step {s : σ} {buf buf' : Vector β n} {k : ℕ}
    (h : Encrypted next combine src dst s buf buf' k) (hahead : ReadsAhead src dst len)
    (hk : k < len) (hsrc : src + k < n) (hdst : dst + k < n) :
    Encrypted next combine src dst s buf
      (buf'.set (dst + k) (combine buf'[src + k] (symbolAt next s k))) (k + 1) := by
  have hread : buf'[src + k]? = buf[src + k]? := by
    apply h.kept
    rcases hahead with hle | hle
    · right
      omega
    · left
      omega
  rw [Vector.getElem?_eq_getElem hsrc, Vector.getElem?_eq_getElem hsrc] at hread
  have hsymbol := Option.some.inj hread
  constructor
  · intro i hi
    rcases Nat.lt_succ_iff_lt_or_eq.mp hi with hlt | rfl
    · rw [Vector.getElem?_set_ne hdst (by omega)]
      exact h.written i hlt
    · rw [Vector.getElem?_set_self hdst, Vector.getElem?_eq_getElem hsrc, hsymbol, Option.map_some]
  · intro i hi
    rw [Vector.getElem?_set_ne hdst (by omega)]
    exact h.kept i (by omega)

/-- The loop encrypts the range, whether or not it is written back to where it was read. -/
theorem loop_encrypted (s : σ) (buf : Vector β n) (hahead : ReadsAhead src dst len)
    (hsrc : src + len ≤ n) (hdst : dst + len ≤ n) {k : ℕ} (hk : k ≤ len) :
    ∃ buf', loop next combine src dst (s, buf) k = some (stateAt next s k, buf') ∧
      Encrypted next combine src dst s buf buf' k := by
  induction k with
  | zero =>
      refine ⟨buf, rfl, ?_, ?_⟩
      · intro i hi
        exact absurd hi (Nat.not_lt_zero i)
      · intro i _
        rfl
  | succ k ih =>
      obtain ⟨buf', hrun, hencrypted⟩ := ih (by omega)
      rw [loop_succ, hrun, Option.bind_some, stateAt_succ,
        loopRound_eq _ buf' (show src + k < n by omega) (show dst + k < n by omega)]
      exact ⟨_, rfl, hencrypted.step hahead (by omega) (by omega) (by omega)⟩

/-- What the loop leaves at `dst` is the encrypted text that was at `src`. -/
theorem Encrypted.range_eq {s : σ} {buf buf' : Vector β n}
    (h : Encrypted next combine src dst s buf buf' len) :
    (buf'.toList.drop dst).take len = crypt next combine s ((buf.toList.drop src).take len) := by
  apply List.ext_getElem?
  intro i
  rw [getElem?_crypt]
  rcases Nat.lt_or_ge i len with hlt | hge
  · simpa [List.getElem?_take_of_lt hlt] using h.written i hlt
  · rw [List.getElem?_take_eq_none hge, List.getElem?_take_eq_none hge, Option.map_none]

/-- The whole buffer after the loop. -/
theorem Encrypted.toList_eq {s : σ} {buf buf' : Vector β n}
    (h : Encrypted next combine src dst s buf buf' len) :
    buf'.toList = buf.toList.take dst ++ crypt next combine s ((buf.toList.drop src).take len) ++
      buf.toList.drop (dst + len) := by
  have hbefore : buf'.toList.take dst = buf.toList.take dst := by
    apply List.ext_getElem?
    intro i
    rcases Nat.lt_or_ge i dst with hlt | hge
    · simpa [List.getElem?_take_of_lt hlt] using h.kept i (Or.inl hlt)
    · rw [List.getElem?_take_eq_none hge, List.getElem?_take_eq_none hge]
  have hafter : buf'.toList.drop (dst + len) = buf.toList.drop (dst + len) := by
    apply List.ext_getElem?
    intro i
    simpa using h.kept (dst + len + i) (Or.inr (Nat.le_add_right _ _))
  calc
    buf'.toList = buf'.toList.take dst ++
        ((buf'.toList.drop dst).take len ++ buf'.toList.drop (dst + len)) := by
      rw [← List.drop_drop, List.take_append_drop, List.take_append_drop]
    _ = buf.toList.take dst ++ (crypt next combine s ((buf.toList.drop src).take len) ++
        buf.toList.drop (dst + len)) := by
      rw [hbefore, h.range_eq, hafter]
    _ = _ := (List.append_assoc _ _ _).symm

/-- Encrypting a range in place once more restores the buffer. -/
theorem Encrypted.twice {s : σ} {buf once twice : Vector β n}
    (hinv : ∀ x k, combine (combine x k) k = x)
    (h : Encrypted next combine src src s buf once len)
    (h' : Encrypted next combine src src s once twice len) : twice = buf := by
  have hsame : ∀ i : ℕ, twice[i]? = buf[i]? := by
    intro i
    by_cases hi : i < src ∨ src + len ≤ i
    · rw [h'.kept i hi, h.kept i hi]
    · obtain ⟨k, rfl⟩ : ∃ k, i = src + k := ⟨i - src, by omega⟩
      have hk : k < len := by omega
      rw [h'.written k hk, h.written k hk, Option.map_map]
      simp [Function.comp_def, hinv]
  apply Vector.toList_inj.mp
  apply List.ext_getElem?
  intro i
  simpa using hsame i

end

end Keystream
