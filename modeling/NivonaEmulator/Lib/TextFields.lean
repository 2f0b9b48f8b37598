import Mathlib.Algebra.Order.Ring.Nat
import Mathlib.Data.List.TakeWhile

/-!
# Values between fixed texts

A text of fixed pieces with values in between determines the values, as long as no
fixed piece starts with a symbol that a value may have.  Two hexadecimal digits for
each byte determine the bytes.
-/

namespace TextFields

/-! ## Fixed pieces and values -/

section

variable {α : Type*}

/-- Each value follows its fixed piece; the tail ends the text. -/
def render (tail : List α) : List (List α × List α) → List α
  | [] => tail
  | (piece, value) :: rest => piece ++ value ++ render tail rest

/-- The text starts with a symbol that no value has. -/
def StartsOutside (inValue : α → Bool) (text : List α) : Prop :=
  ∃ c rest, text = c :: rest ∧ inValue c = false

variable {inValue : α → Bool}

theorem StartsOutside.append {text : List α} (h : StartsOutside inValue text) (more : List α) :
    StartsOutside inValue (text ++ more) := by
  obtain ⟨c, rest, rfl, hc⟩ := h
  exact ⟨c, rest ++ more, rfl, hc⟩

/-- A value ends where the next fixed piece starts. -/
theorem value_eq_of_append_eq {v v' t t' : List α} (hv : ∀ c ∈ v, inValue c = true)
    (hv' : ∀ c ∈ v', inValue c = true) (ht : StartsOutside inValue t)
    (ht' : StartsOutside inValue t') (h : v ++ t = v' ++ t') : v = v' ∧ t = t' := by
  have htake {v t : List α} (hv : ∀ c ∈ v, inValue c = true) (ht : StartsOutside inValue t) :
      (v ++ t).takeWhile inValue = v := by
    obtain ⟨c, rest, rfl, hc⟩ := ht
    rw [List.takeWhile_append_of_pos hv, List.takeWhile_cons_of_neg (by simp [hc]),
      List.append_nil]
  have hvalue : v = v' := by
    rw [← htake hv ht, h, htake hv' ht']
  exact ⟨hvalue, List.append_cancel_left (hvalue ▸ h)⟩

/-- The text of fields, of which all but perhaps the first start outside. -/
theorem startsOutside_render {tail : List α} (htail : StartsOutside inValue tail)
    {fields : List (List α × List α)} (h : ∀ f ∈ fields, StartsOutside inValue f.1) :
    StartsOutside inValue (render tail fields) := by
  rcases fields with _ | ⟨⟨piece, value⟩, rest⟩
  · exact htail
  · rw [render, List.append_assoc]
    exact (h (piece, value) List.mem_cons_self).append _

/-- Two texts with the same fixed pieces have the same values. -/
theorem values_eq_of_render_eq {tail : List α} (htail : StartsOutside inValue tail)
    {fields fields' : List (List α × List α)}
    (hpieces : fields.map Prod.fst = fields'.map Prod.fst)
    (hout : ∀ f ∈ fields, StartsOutside inValue f.1)
    (hv : ∀ f ∈ fields, ∀ c ∈ f.2, inValue c = true)
    (hv' : ∀ f ∈ fields', ∀ c ∈ f.2, inValue c = true)
    (h : render tail fields = render tail fields') : fields = fields' := by
  induction fields generalizing fields' with
  | nil =>
      rcases fields' with _ | ⟨f', rest'⟩
      · rfl
      · exact absurd hpieces (by simp)
  | cons f rest ih =>
      obtain ⟨piece, value⟩ := f
      rcases fields' with _ | ⟨⟨piece', value'⟩, rest'⟩
      · exact absurd hpieces (by simp)
      · obtain ⟨rfl, hmore⟩ : piece = piece' ∧ rest.map Prod.fst = rest'.map Prod.fst := by
          simpa using hpieces
        have hout' : ∀ f ∈ rest', StartsOutside inValue f.1 := by
          intro f hf
          have hmem : f.1 ∈ rest.map Prod.fst := by
            rw [hmore]
            exact List.mem_map_of_mem hf
          obtain ⟨g, hg, heq⟩ := List.mem_map.mp hmem
          rw [← heq]
          exact hout g (List.mem_cons_of_mem _ hg)
        simp only [render, List.append_assoc, List.append_cancel_left_eq] at h
        obtain ⟨rfl, htext⟩ := value_eq_of_append_eq (hv _ List.mem_cons_self)
          (hv' _ List.mem_cons_self)
          (startsOutside_render htail fun f hf => hout f (List.mem_cons_of_mem _ hf))
          (startsOutside_render htail hout') h
        have hrest := ih hmore (fun f hf => hout f (List.mem_cons_of_mem _ hf))
          (fun f hf => hv f (List.mem_cons_of_mem _ hf))
          (fun f hf => hv' f (List.mem_cons_of_mem _ hf)) htext
        rw [hrest]

theorem render_append (tail : List α) (fields fields' : List (List α × List α)) :
    render tail (fields ++ fields') = render (render tail fields') fields := by
  induction fields with
  | nil => rfl
  | cons f rest ih =>
      obtain ⟨piece, value⟩ := f
      simp only [List.cons_append, render, ih]

theorem render_tail_append (tail more : List α) (fields : List (List α × List α)) :
    render (tail ++ more) fields = render tail fields ++ more := by
  induction fields with
  | nil => rfl
  | cons f rest ih =>
      obtain ⟨piece, value⟩ := f
      simp only [render, ih, List.append_assoc]

theorem length_render (tail : List α) (fields : List (List α × List α)) :
    (render tail fields).length =
      (fields.map fun f => f.1.length).sum + (fields.map fun f => f.2.length).sum +
        tail.length := by
  induction fields with
  | nil => simp [render]
  | cons f rest ih =>
      simp only [render, List.length_append, ih, List.map_cons, List.sum_cons]
      omega

end

/-! ## Hexadecimal bytes -/

/-- `%02x`. -/
def hexByte (b : UInt8) : List Char :=
  [Nat.digitChar (b.toNat / 16), Nat.digitChar (b.toNat % 16)]

def hexBytes (bytes : List UInt8) : List Char := bytes.flatMap hexByte

/-- Digits and the letters from a to f. -/
def isHex (c : Char) : Bool := c.isDigit || (97 ≤ c.toNat && c.toNat ≤ 102)

theorem isHex_digitChar {n : ℕ} (h : n < 16) : isHex (Nat.digitChar n) = true := by
  have hall : ∀ n < 16, isHex (Nat.digitChar n) = true := by decide
  exact hall n h

theorem digitChar_inj {m n : ℕ} (hm : m < 16) (hn : n < 16)
    (h : Nat.digitChar m = Nat.digitChar n) : m = n := by
  have hall : ∀ m < 16, ∀ n < 16, Nat.digitChar m = Nat.digitChar n → m = n := by decide
  exact hall m hm n hn h

theorem isHex_hexByte (b : UInt8) : ∀ c ∈ hexByte b, isHex c = true := by
  have hlt := b.toNat_lt
  intro c hc
  rcases List.mem_cons.mp hc with rfl | hc
  · exact isHex_digitChar (by omega)
  · obtain rfl := List.mem_singleton.mp hc
    exact isHex_digitChar (by omega)

theorem isHex_hexBytes (bytes : List UInt8) : ∀ c ∈ hexBytes bytes, isHex c = true := by
  intro c hc
  obtain ⟨b, -, hb⟩ := List.mem_flatMap.mp hc
  exact isHex_hexByte b c hb

theorem hexByte_inj {b b' : UInt8} (h : hexByte b = hexByte b') : b = b' := by
  have hlt := b.toNat_lt
  have hlt' := b'.toNat_lt
  obtain ⟨hhigh, hlow⟩ : Nat.digitChar (b.toNat / 16) = Nat.digitChar (b'.toNat / 16) ∧
      Nat.digitChar (b.toNat % 16) = Nat.digitChar (b'.toNat % 16) := by
    simpa [hexByte] using h
  have hdiv := digitChar_inj (by omega) (by omega) hhigh
  have hmod := digitChar_inj (by omega) (by omega) hlow
  apply UInt8.toNat_inj.mp
  omega

theorem length_hexBytes (bytes : List UInt8) : (hexBytes bytes).length = 2 * bytes.length := by
  induction bytes with
  | nil => rfl
  | cons b rest ih =>
      rw [hexBytes, List.flatMap_cons, List.length_append, ← hexBytes, ih, List.length_cons]
      simp only [hexByte, List.length_cons, List.length_nil]
      omega

theorem hexBytes_inj {bytes bytes' : List UInt8} (h : hexBytes bytes = hexBytes bytes') :
    bytes = bytes' := by
  induction bytes generalizing bytes' with
  | nil =>
      have hlength := congrArg List.length h
      rw [length_hexBytes, length_hexBytes] at hlength
      have hzero : bytes'.length = 0 := by
        rw [List.length_nil] at hlength
        omega
      exact (List.eq_nil_of_length_eq_zero hzero).symm
  | cons b rest ih =>
      rcases bytes' with _ | ⟨b', rest'⟩
      · have hlength := congrArg List.length h
        rw [length_hexBytes, length_hexBytes] at hlength
        simp at hlength
      · obtain ⟨hhead, htail⟩ : hexByte b = hexByte b' ∧ hexBytes rest = hexBytes rest' :=
          List.append_inj h rfl
        rw [hexByte_inj hhead, ih htail]

end TextFields
