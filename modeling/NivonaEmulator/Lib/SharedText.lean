import NivonaEmulator.Lib.CheckedBuffer
import Mathlib.Data.Set.Basic

/-!
# Texts copied and read at the same time

An array holds a text with a stop symbol behind it.  Texts of one length are copied
into the array symbol by symbol while others read it symbol by symbol.  Each cell
before the stop then holds what one of the texts has there, so a reading has the
length of the texts and is a mixture of them.
-/

namespace SharedText

open CheckedBuffer (load store)

variable {α : Type*} {size n : ℕ} {stop : α} {texts texts' : Set (List α)}

/-- At every position stands what one of the texts has there. -/
def Mixture (texts : Set (List α)) (symbols : List α) : Prop :=
  ∀ (j : ℕ) (c : α), symbols[j]? = some c → ∃ text ∈ texts, text[j]? = some c

theorem mixture_nil : Mixture texts [] := by
  intro j c hc
  simp at hc

theorem Mixture.mono {symbols : List α} (h : Mixture texts symbols) (hle : texts ⊆ texts') :
    Mixture texts' symbols := by
  intro j c hc
  obtain ⟨text, htext, htc⟩ := h j c hc
  exact ⟨text, hle htext, htc⟩

/-- The next symbol comes from one of the texts as well. -/
theorem Mixture.snoc {symbols : List α} (h : Mixture texts symbols) {c : α}
    (hc : ∃ text ∈ texts, text[symbols.length]? = some c) : Mixture texts (symbols ++ [c]) := by
  intro j c' hj
  rcases Nat.lt_trichotomy j symbols.length with hlt | rfl | hgt
  · rw [List.getElem?_append_left hlt] at hj
    exact h j c' hj
  · rw [List.getElem?_concat_length] at hj
    obtain rfl := Option.some.inj hj
    exact hc
  · have hnone : (symbols ++ [c])[j]? = none := by
      rw [List.getElem?_eq_none_iff, List.length_append]
      exact hgt
    simp [hnone] at hj

/-- A mixture of one text, as long as the text, is the text. -/
theorem Mixture.eq_of_singleton {text symbols : List α} (h : Mixture {text} symbols)
    (hlength : symbols.length = text.length) : symbols = text := by
  refine List.ext_getElem? fun j => ?_
  rcases hj : symbols[j]? with _ | c
  · have hend : text.length ≤ j := by
      rw [← hlength]
      exact List.getElem?_eq_none_iff.mp hj
    exact (List.getElem?_eq_none hend).symm
  · obtain ⟨text', rfl, hc⟩ := h j c hj
    exact hc.symm

/-- The texts have one length and no stop inside. -/
def Plain (stop : α) (n : ℕ) (texts : Set (List α)) : Prop :=
  ∀ text ∈ texts, text.length = n ∧ stop ∉ text

/-- The array holds a mixture of the texts, and the stop behind it. -/
structure Shows (stop : α) (n : ℕ) (texts : Set (List α)) (buf : Vector α size) : Prop where
  cell : ∀ j < n, ∃ text ∈ texts, ∃ c, text[j]? = some c ∧ load buf j = some c
  stop : load buf n = some stop

variable {buf : Vector α size}

theorem Shows.mono (h : Shows stop n texts buf) (hle : texts ⊆ texts') :
    Shows stop n texts' buf where
  cell j hj := by
    obtain ⟨text, htext, c, hc⟩ := h.cell j hj
    exact ⟨text, hle htext, c, hc⟩
  stop := h.stop

theorem Shows.fits (h : Shows stop n texts buf) : n < size :=
  (Vector.getElem?_eq_some_iff.mp h.stop).1

/-- One symbol of a text is copied. -/
theorem Shows.storeSymbol (h : Shows stop n texts buf) {text : List α} (htext : text ∈ texts)
    {j : ℕ} {c : α} (hc : text[j]? = some c) (hj : j < n) :
    ∃ buf', store buf j c = some buf' ∧ Shows stop n texts buf' := by
  have hlt : j < size := Nat.lt_trans hj h.fits
  refine ⟨_, CheckedBuffer.store_eq hlt c, ?_, ?_⟩
  · intro i hi
    by_cases hij : j = i
    · subst hij
      exact ⟨text, htext, c, hc, CheckedBuffer.load_set_self buf hlt c⟩
    · rw [CheckedBuffer.load_set_ne buf hlt c hij]
      exact h.cell i hi
  · rw [CheckedBuffer.load_set_ne buf hlt c (Nat.ne_of_lt hj)]
    exact h.stop

/-- The stop is written behind a text. -/
theorem Shows.storeStop (h : Shows stop n texts buf) :
    ∃ buf', store buf n stop = some buf' ∧ Shows stop n texts buf' := by
  refine ⟨_, CheckedBuffer.store_eq h.fits stop, ?_, ?_⟩
  · intro i hi
    rw [CheckedBuffer.load_set_ne buf h.fits stop (Nat.ne_of_gt hi)]
    exact h.cell i hi
  · exact CheckedBuffer.load_set_self buf h.fits stop

/-- What is read before the stop is a symbol of one of the texts, and not the stop. -/
theorem Shows.load_symbol (h : Shows stop n texts buf) (hplain : Plain stop n texts) {j : ℕ}
    (hj : j < n) : ∃ c, load buf j = some c ∧ c ≠ stop ∧
      ∃ text ∈ texts, text[j]? = some c := by
  obtain ⟨text, htext, c, hc, hload⟩ := h.cell j hj
  refine ⟨c, hload, ?_, text, htext, hc⟩
  rintro rfl
  exact (hplain text htext).2 (List.mem_of_getElem? hc)

/-- An array that holds one text, padded with the stop. -/
theorem shows_padded {text : List α} (hfits : text.length < size) :
    Shows stop text.length {text} (Vector.ofFn fun i : Fin size => text.getD i stop) where
  cell j hj := by
    have hlt : j < size := Nat.lt_trans hj hfits
    refine ⟨text, rfl, text[j], List.getElem?_eq_getElem hj, ?_⟩
    rw [CheckedBuffer.load_eq hlt]
    simp [List.getD, hj]
  stop := by
    rw [CheckedBuffer.load_eq hfits]
    simp [List.getD]

end SharedText
