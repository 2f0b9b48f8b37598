import NivonaEmulator.DiagReport
import NivonaEmulator.Lib.Decimal
import NivonaEmulator.Lib.TextFields
import Mathlib.Algebra.Order.BigOperators.Group.List

/-!
# The text of the diagnostic endpoint

`diag_get` prints the counters and the captures into a buffer of 1024 bytes, piece by
piece.  Whatever the values, no piece is cut and nothing is written or sent beyond the
buffer; and the text tells the values apart.
-/

namespace Nivona

open TextFields

/-- `sizeof(body)` of `diag_get`. -/
def DIAG_BODY_BYTES : ℕ := 1024

/-- The buffer up to its NUL, and the variable `n`. -/
structure DiagBody where
  text : List Char
  n : ℕ
  deriving DecidableEq, Repr

/-- `n += snprintf(body + n, sizeof(body) - n, ...)`; `none` when the size wraps around.
What does not fit is cut, but counted. -/
def DiagBody.snprintf (body : DiagBody) (text : List Char) : Option DiagBody :=
  if body.n ≤ DIAG_BODY_BYTES then
    some
      { text := body.text.take body.n ++ text.take (DIAG_BODY_BYTES - body.n - 1)
        n := body.n + text.length }
  else none

/-- A loop over the bytes of a capture. -/
def DiagBody.hexLoop (body : DiagBody) : List UInt8 → Option DiagBody
  | [] => some body
  | b :: rest =>
      if body.n < DIAG_BODY_BYTES - 4 then do
        let body ← body.snprintf (hexByte b)
        body.hexLoop rest
      else some body

/-- `httpd_resp_send(req, body, n)`; `none` when it reads beyond the buffer. -/
def DiagBody.send (body : DiagBody) : Option (List Char) :=
  if body.n < DIAG_BODY_BYTES then some (body.text.take body.n) else none

/-- `%lu`. -/
def printLu (v : UInt32) : List Char := Nat.toDigits 10 v.toNat

/-- The texts before the counters. -/
def DIAG_LABELS : List String :=
  ["\x7b\"connects\":", ",\"disconnects\":", ",\"subscribes\":", ",\"ad01_writes\":",
    ",\"ad03_writes\":", ",\"notify_ok\":", ",\"notify_fail\":", ",\"try_parse\":",
    ",\"cs_mismatch\":", ",\"unknown_cmd\":", ",\"frames_parsed\":", ",\"hu_rx\":",
    ",\"hu_ver_ok\":", ",\"hu_ver_bad\":", ",\"hu_resp\":", ",\"hx_resp\":",
    ",\"unhandled\":", ",\"last_ad03_len\":"]

/-- The counters, in their order. -/
def diagValues (ad01Writes : UInt32) (r : DiagReport) : List UInt32 :=
  [r.connects, r.disconnects, r.subscribes, ad01Writes, r.ad03Writes, r.notifyOk, r.notifyFail,
    r.tryParse, r.csMismatch, r.unknownCmd, r.framesParsed, r.huRx, r.huVerOk, r.huVerBad,
    r.huResp, r.hxResp, r.unhandled, r.lastAd03Len]

def diagCounters (ad01Writes : UInt32) (r : DiagReport) : List (List Char × List Char) :=
  (DIAG_LABELS.map String.toList).zip ((diagValues ad01Writes r).map printLu)

def lastAd03Label : List Char := ",\"last_ad03\":\"".toList

def lastDecryptLabel : List Char := "\",\"last_decrypt\":\"".toList

def recvCsLabel : List Char := "\",\"recv_cs\":\"".toList

def expectCsLabel : List Char := "\",\"expect_cs\":\"".toList

def diagTail : List Char := "\"\x7d".toList

/-- `diag_get`: what is sent. -/
def diagText (ad01Writes : UInt32) (r : DiagReport) : Option (List Char) := do
  let body ← DiagBody.snprintf ⟨[], 0⟩ (render lastAd03Label (diagCounters ad01Writes r))
  let body ← body.hexLoop r.lastAd03
  let body ← body.snprintf lastDecryptLabel
  let body ← body.hexLoop r.lastDecrypt
  let body ← body.snprintf
    (recvCsLabel ++ hexByte r.recvCs ++ expectCsLabel ++ hexByte r.expectCs ++ diagTail)
  body.send

/-! ## No cut -/

/-- The pieces of the text with their values. -/
def diagFields (ad01Writes : UInt32) (r : DiagReport) : List (List Char × List Char) :=
  diagCounters ad01Writes r ++
    [(lastAd03Label, hexBytes r.lastAd03), (lastDecryptLabel, hexBytes r.lastDecrypt),
      (recvCsLabel, hexByte r.recvCs), (expectCsLabel, hexByte r.expectCs)]

/-- The buffer holds a text that ends before the end of the buffer. -/
def DiagBody.Holds (body : DiagBody) (text : List Char) : Prop :=
  body = ⟨text, text.length⟩ ∧ text.length < DIAG_BODY_BYTES

theorem DiagBody.Holds.snprintf {body : DiagBody} {text : List Char} (h : body.Holds text)
    (more : List Char) (hfits : text.length + more.length < DIAG_BODY_BYTES) :
    ∃ body', body.snprintf more = some body' ∧ body'.Holds (text ++ more) := by
  obtain ⟨rfl, hlt⟩ := h
  refine ⟨⟨text ++ more, (text ++ more).length⟩, ?_, rfl, by simpa using hfits⟩
  rw [DiagBody.snprintf, if_pos (Nat.le_of_lt hlt)]
  have htake : more.take (DIAG_BODY_BYTES - text.length - 1) = more :=
    List.take_of_length_le (by omega)
  simp [htake]

/-- As long as the whole capture fits with four bytes to spare, the loop prints all of it. -/
theorem DiagBody.Holds.hexLoop {body : DiagBody} {text : List Char} (h : body.Holds text)
    (bytes : List UInt8) (hfits : text.length + 2 * bytes.length + 4 < DIAG_BODY_BYTES) :
    ∃ body', body.hexLoop bytes = some body' ∧ body'.Holds (text ++ hexBytes bytes) := by
  induction bytes generalizing body text with
  | nil => exact ⟨body, rfl, by simpa [hexBytes] using h⟩
  | cons b rest ih =>
      have hn : body.n < DIAG_BODY_BYTES - 4 := by
        have hlen : body.n = text.length := by rw [h.1]
        simp only [DIAG_BODY_BYTES, List.length_cons] at hfits ⊢
        omega
      have hbyte : text.length + (hexByte b).length < DIAG_BODY_BYTES := by
        simp only [hexByte, List.length_cons, List.length_nil] at hfits ⊢
        omega
      obtain ⟨body', hprint, hholds⟩ := h.snprintf (hexByte b) hbyte
      obtain ⟨bodyEnd, hrest, hall⟩ := @ih body' (text ++ hexByte b) hholds (by
        simp only [hexByte, List.length_append, List.length_cons, List.length_nil] at hfits ⊢
        omega)
      refine ⟨bodyEnd, ?_, ?_⟩
      · rw [DiagBody.hexLoop, if_pos hn, hprint]
        exact hrest
      · rwa [List.append_assoc] at hall

theorem length_printLu (v : UInt32) : (printLu v).length ≤ 10 := by
  have hlt := v.toNat_lt
  exact (Nat.length_toDigits_le_iff (by decide) (by decide)).mpr (by omega)

theorem diagCounters_pieces (ad01Writes : UInt32) (r : DiagReport) :
    (diagCounters ad01Writes r).map Prod.fst = DIAG_LABELS.map String.toList :=
  List.map_fst_zip (by simp [DIAG_LABELS, diagValues])

theorem diagCounters_values (ad01Writes : UInt32) (r : DiagReport) :
    (diagCounters ad01Writes r).map Prod.snd = (diagValues ad01Writes r).map printLu :=
  List.map_snd_zip (by simp [DIAG_LABELS, diagValues])

theorem length_diagCounters (ad01Writes : UInt32) (r : DiagReport) :
    (diagCounters ad01Writes r).length = 18 := by
  rw [diagCounters, List.length_zip]
  simp [DIAG_LABELS, diagValues]

theorem length_counterPieces (ad01Writes : UInt32) (r : DiagReport) :
    ((diagCounters ad01Writes r).map fun f => f.1.length).sum = 247 := by
  have hpieces : ((DIAG_LABELS.map String.toList).map List.length).sum = 247 := by decide +kernel
  rw [← diagCounters_pieces ad01Writes r, List.map_map] at hpieces
  exact hpieces

theorem length_counterDigits (ad01Writes : UInt32) (r : DiagReport) :
    ((diagCounters ad01Writes r).map fun f => f.2.length).sum ≤ 180 := by
  have hdigits := List.sum_le_card_nsmul
    (((diagCounters ad01Writes r).map Prod.snd).map List.length) 10 (by
      rw [diagCounters_values]
      intro n hn
      obtain ⟨v, -, rfl⟩ : ∃ v ∈ diagValues ad01Writes r, (printLu v).length = n := by
        simpa using hn
      exact length_printLu v)
  rw [List.map_map, List.length_map, length_diagCounters] at hdigits
  exact hdigits

/-- The counters leave more than half of the buffer. -/
theorem length_counters (ad01Writes : UInt32) (r : DiagReport) :
    (render lastAd03Label (diagCounters ad01Writes r)).length ≤ 441 := by
  have hlabel : lastAd03Label.length = 14 := by decide +kernel
  have hdigits := length_counterDigits ad01Writes r
  rw [length_render, length_counterPieces, hlabel]
  omega

theorem holds_empty : DiagBody.Holds ⟨[], 0⟩ [] :=
  ⟨rfl, by decide⟩

theorem DiagBody.Holds.send {body : DiagBody} {text : List Char} (h : body.Holds text) :
    body.send = some text := by
  obtain ⟨rfl, hlt⟩ := h
  rw [DiagBody.send, if_pos hlt, List.take_length]

/-- The text, piece by piece. -/
theorem render_diagFields (ad01Writes : UInt32) (r : DiagReport) :
    render diagTail (diagFields ad01Writes r) =
      render lastAd03Label (diagCounters ad01Writes r) ++ hexBytes r.lastAd03 ++
        lastDecryptLabel ++ hexBytes r.lastDecrypt ++
        (recvCsLabel ++ hexByte r.recvCs ++ expectCsLabel ++ hexByte r.expectCs ++ diagTail) := by
  rw [diagFields, render_append]
  simp only [render, List.append_assoc]
  rw [render_tail_append]

theorem length_labels : lastDecryptLabel.length = 18 ∧ recvCsLabel.length = 13 ∧
    expectCsLabel.length = 15 ∧ diagTail.length = 2 := by
  decide +kernel

/-- No piece of the text is cut. -/
theorem diagText_eq (ad01Writes : UInt32) {r : DiagReport} (had03 : r.lastAd03.length ≤ 32)
    (hdecrypt : r.lastDecrypt.length ≤ 32) :
    diagText ad01Writes r = some (render diagTail (diagFields ad01Writes r)) ∧
      (render diagTail (diagFields ad01Writes r)).length < DIAG_BODY_BYTES := by
  have hcounters := length_counters ad01Writes r
  obtain ⟨hlabel, hrecv, hexpect, htail⟩ := length_labels
  have hhex (b : UInt8) : (hexByte b).length = 2 := rfl
  have hsize : DIAG_BODY_BYTES = 1024 := rfl
  have hlength03 := length_hexBytes r.lastAd03
  have hlengthDecrypt := length_hexBytes r.lastDecrypt
  obtain ⟨body₁, hprint₁, hholds₁⟩ := holds_empty.snprintf
    (render lastAd03Label (diagCounters ad01Writes r)) (by
      rw [List.length_nil]
      omega)
  rw [List.nil_append] at hholds₁
  obtain ⟨body₂, hprint₂, hholds₂⟩ := hholds₁.hexLoop r.lastAd03 (by omega)
  obtain ⟨body₃, hprint₃, hholds₃⟩ := hholds₂.snprintf lastDecryptLabel (by
    rw [List.length_append]
    omega)
  obtain ⟨body₄, hprint₄, hholds₄⟩ := hholds₃.hexLoop r.lastDecrypt (by
    simp only [List.length_append]
    omega)
  obtain ⟨body₅, hprint₅, hholds₅⟩ := hholds₄.snprintf
    (recvCsLabel ++ hexByte r.recvCs ++ expectCsLabel ++ hexByte r.expectCs ++ diagTail)
    (by
      simp only [List.length_append, hhex]
      omega)
  rw [render_diagFields]
  refine ⟨?_, hholds₅.2⟩
  simp only [diagText, hprint₁, hprint₂, hprint₃, hprint₄, hprint₅, Option.bind_eq_bind,
    Option.bind_some]
  exact hholds₅.send

/-! ## The text tells the values -/

theorem printLu_inj {v v' : UInt32} (h : printLu v = printLu v') : v = v' := by
  apply UInt32.toNat_inj.mp
  rw [← Decimal.digits_toDigits v.toNat, ← Decimal.digits_toDigits v'.toNat]
  exact congrArg Decimal.digits h

theorem isHex_printLu (v : UInt32) : ∀ c ∈ printLu v, isHex c = true := by
  intro c hc
  rw [isHex, Decimal.isDigit_of_mem_toDigits hc, Bool.true_or]

theorem startsOutside_of_head? {text : List Char} {c : Char} (h : text.head? = some c)
    (hc : isHex c = false) : StartsOutside isHex text := by
  obtain ⟨rest, rfl⟩ := List.head?_eq_some_iff.mp h
  exact ⟨c, rest, rfl, hc⟩

def diagPieces : List (List Char) :=
  DIAG_LABELS.map String.toList ++ [lastAd03Label, lastDecryptLabel, recvCsLabel, expectCsLabel]

theorem diagFields_pieces (ad01Writes : UInt32) (r : DiagReport) :
    (diagFields ad01Writes r).map Prod.fst = diagPieces := by
  rw [diagFields, List.map_append, diagCounters_pieces]
  rfl

/-- No piece starts with a digit or a letter. -/
theorem startsOutside_diagPieces : ∀ piece ∈ diagPieces, StartsOutside isHex piece := by
  have hheads : ∀ piece ∈ diagPieces, (piece.head?.any fun c => !isHex c) = true := by
    decide +kernel
  intro piece hpiece
  have hhead := hheads piece hpiece
  rcases hc : piece.head? with _ | c
  · rw [hc] at hhead
    exact absurd hhead Bool.false_ne_true
  · rw [hc] at hhead
    exact startsOutside_of_head? hc (by simpa using hhead)

theorem isHex_diagFields (ad01Writes : UInt32) (r : DiagReport) :
    ∀ f ∈ diagFields ad01Writes r, ∀ c ∈ f.2, isHex c = true := by
  intro f hf
  rcases List.mem_append.mp hf with hcounter | hlast
  · have hvalue : f.2 ∈ (diagValues ad01Writes r).map printLu := by
      rw [← diagCounters_values]
      exact List.mem_map_of_mem hcounter
    obtain ⟨v, -, hv⟩ := List.mem_map.mp hvalue
    rw [← hv]
    exact isHex_printLu v
  · simp only [List.mem_cons, List.not_mem_nil, or_false] at hlast
    rcases hlast with rfl | rfl | rfl | rfl
    · exact isHex_hexBytes _
    · exact isHex_hexBytes _
    · exact isHex_hexByte _
    · exact isHex_hexByte _

/-- The fields give back every value of the report. -/
theorem diagFields_inj {ad01Writes ad01Writes' : UInt32} {r r' : DiagReport}
    (h : diagFields ad01Writes r = diagFields ad01Writes' r') :
    ad01Writes = ad01Writes' ∧ r = r' := by
  have hlength : (diagCounters ad01Writes r).length = (diagCounters ad01Writes' r').length := by
    rw [length_diagCounters, length_diagCounters]
  obtain ⟨hcounters, hlast⟩ := List.append_inj h hlength
  have hvalues : diagValues ad01Writes r = diagValues ad01Writes' r' := by
    apply List.map_injective_iff.mpr @printLu_inj
    rw [← diagCounters_values, ← diagCounters_values, hcounters]
  have hcaptures : hexBytes r.lastAd03 = hexBytes r'.lastAd03 ∧
      hexBytes r.lastDecrypt = hexBytes r'.lastDecrypt ∧ hexByte r.recvCs = hexByte r'.recvCs ∧
      hexByte r.expectCs = hexByte r'.expectCs := by
    simpa using hlast
  obtain ⟨had03, hdecrypt, hrecv, hexpect⟩ := hcaptures
  have had03 := hexBytes_inj had03
  have hdecrypt := hexBytes_inj hdecrypt
  have hrecv := hexByte_inj hrecv
  have hexpect := hexByte_inj hexpect
  cases r
  cases r'
  simp only [diagValues, List.cons.injEq] at hvalues had03 hdecrypt hrecv hexpect
  simp [hvalues, had03, hdecrypt, hrecv, hexpect]

/-- Whatever the counters and the captures, `diag_get` prints a text that fits its buffer,
and two texts are the same only when every value printed is. -/
theorem diagTexts (ad01Writes ad01Writes' : UInt32) (d d' : Diag) :
    ∃ text text', diagText ad01Writes (diagGet d) = some text ∧
      diagText ad01Writes' (diagGet d') = some text' ∧ text.length < DIAG_BODY_BYTES ∧
      (text = text' ↔ ad01Writes = ad01Writes' ∧ diagGet d = diagGet d') := by
  have hfit (d : Diag) : (diagGet d).lastAd03.length ≤ 32 ∧ (diagGet d).lastDecrypt.length ≤ 32 :=
    ⟨List.length_take_le _ _, List.length_take_le _ _⟩
  obtain ⟨htext, hlt⟩ := diagText_eq ad01Writes (hfit d).1 (hfit d).2
  obtain ⟨htext', -⟩ := diagText_eq ad01Writes' (hfit d').1 (hfit d').2
  refine ⟨_, _, htext, htext', hlt, ?_, ?_⟩
  · intro h
    apply diagFields_inj
    refine values_eq_of_render_eq (startsOutside_of_head? (c := '\"') (by decide +kernel) (by decide))
      ?_ ?_ (isHex_diagFields _ _) (isHex_diagFields _ _) h
    · rw [diagFields_pieces, diagFields_pieces]
    · intro f hf
      apply startsOutside_diagPieces
      rw [← diagFields_pieces ad01Writes (diagGet d)]
      exact List.mem_map_of_mem hf
  · rintro ⟨rfl, h⟩
    rw [h]

end Nivona
