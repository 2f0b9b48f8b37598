import NivonaEmulator.Session
import NivonaEmulator.System

/-!
# Malformed frames

As many bytes as a request of fixed size has, behind its command, are either
one frame that is dispatched or nothing at all: a wrong end marker or a wrong
checksum leaves no trace outside the diagnostic record.
-/

namespace Nivona

/-! ## What makes a frame valid -/

/-- The bytes behind `S`, `H`, `c`: an end marker, and before it a ciphertext
whose last decrypted byte is the checksum of the rest. -/
def ValidTail (c : UInt8) (rest : List UInt8) : Prop :=
  rest.getLast? = some FRAME_END ∧
    let plain := nivonaRc4WithMasterKey rest.dropLast
    plain.getLast? = some (checksum (hCmd c ++ plain.dropLast))

instance (c : UInt8) (rest : List UInt8) : Decidable (ValidTail c rest) :=
  inferInstanceAs (Decidable (_ ∧ _))

/-- Nothing was dispatched or sent, and core and session are as before. -/
structure Rejected (m m' : Machine) : Prop where
  calls : m'.link.calls = m.link.calls
  wire : m'.link.wire = m.link.wire
  core : m'.core = m.core
  handshakeDone : m'.link.frame.handshakeDone = m.link.frame.handshakeDone
  keyPrefix : m'.link.frame.keyPrefix = m.link.frame.keyPrefix

/-- The parser is between frames and holds no bytes. -/
def ParserIdle (m : Machine) : Prop :=
  m.link.frame.inFrame = false ∧ m.link.frame.buf = []

theorem parserIdle_closeFrame (m : Machine) : ParserIdle (closeFrame m) :=
  ⟨rfl, rfl⟩

/-! ## Parsing the collected bytes -/

/-- The bytes of a fixed-size request are collected and parsed once. -/
theorem feed_expectedSize {m : Machine} (hidle : m.link.frame.inFrame = false) {c : UInt8}
    {ct : List UInt8} {e : UInt8} (hsize : expectedRequestSize c = ct.length + 4) :
    ∃ h, nivonaFrameFeed m (FRAME_START :: 0x48 :: c :: (ct ++ [e])) =
      closeFrame (tryParse (m.receiving (FRAME_START :: 0x48 :: c :: (ct ++ [e])) h)) := by
  have hle : (FRAME_START :: 0x48 :: c :: (ct ++ [e])).length ≤ MAX_FRAME_BYTES := by
    have := expectedRequestSize_le c
    simp only [List.length_cons, List.length_append, List.length_nil, MAX_FRAME_BYTES]
    omega
  have hlast : frameComplete (FRAME_START :: 0x48 :: c :: (ct ++ [e])) e = true := by
    rw [frameComplete_hCmd, if_pos (by omega)]
    simp [hsize]
  have hshape : FRAME_START :: 0x48 :: c :: (ct ++ [e]) =
      FRAME_START :: ((0x48 :: c :: ct) ++ [e]) := rfl
  exact ⟨hle, feed_frame hidle hshape hle (incomplete_ofSize hsize) hlast⟩

/-- A frame without an end marker is dropped. -/
theorem openFrame_badMarker (hd : Bool) (c : UInt8) {ct : List UInt8} {e : UInt8}
    (he : e ≠ FRAME_END) (hct : ct ≠ []) :
    openFrame hd (FRAME_START :: 0x48 :: c :: (ct ++ [e])) = .error .badMarkers := by
  have hlen : 0 < ct.length := List.length_pos_iff.mpr hct
  have hlast : (FRAME_START :: 0x48 :: c :: (ct ++ [e])).getLastD 0 = e :=
    @List.getLastD_concat _ _ _ (FRAME_START :: 0x48 :: c :: ct)
  rw [openFrame, if_neg (by simp), if_pos (.inr (by rwa [hlast]))]

/-- The checksum test, on the decrypted bytes. -/
theorem recvCs_eq_expectCs_iff {c : UInt8} {ct : List UInt8} (hct : ct ≠ []) {o : OpenedFrame}
    (ho : o = { cmd := hCmd c, encrypted := true, plain := nivonaRc4WithMasterKey ct }) :
    o.recvCs = o.expectCs ↔ ValidTail c (ct ++ [FRAME_END]) := by
  have hne : nivonaRc4WithMasterKey ct ≠ [] := by
    rw [← List.length_pos_iff, length_nivonaRc4WithMasterKey]
    exact List.length_pos_iff.mpr hct
  subst ho
  simp only [ValidTail, List.getLast?_concat, List.dropLast_concat, OpenedFrame.recvCs,
    OpenedFrame.expectCs, OpenedFrame.payload, List.getLastD_eq_getLast?,
    List.getLast?_eq_some_getLast hne]
  simp

/-- A valid tail is dispatched, anything else is dropped. -/
theorem feed_expectedSize_cases {m : Machine} (hidle : m.link.frame.inFrame = false) {c : UInt8}
    {rest : List UInt8} (hsize : rest.length + 3 = expectedRequestSize c)
    (hpos : 0 < expectedRequestSize c) :
    (ValidTail c rest ∧ ∃ d h, nivonaFrameFeed m (FRAME_START :: 0x48 :: c :: rest) =
      closeFrame (nivonaDispatch
        ((m.receiving (FRAME_START :: 0x48 :: c :: rest) h).withDiag d) (hCmd c)
        (stripPrefix m.link.frame true (nivonaRc4WithMasterKey rest.dropLast).dropLast))) ∨
    (¬ValidTail c rest ∧ ∃ d h, nivonaFrameFeed m (FRAME_START :: 0x48 :: c :: rest) =
      closeFrame ((m.receiving (FRAME_START :: 0x48 :: c :: rest) h).withDiag d)) := by
  have hfive : 4 ≤ rest.length := by
    have := seven_le_expectedRequestSize hpos
    omega
  obtain ⟨ct, e, rfl⟩ : ∃ ct e, rest = ct ++ [e] := by
    rcases List.eq_nil_or_concat rest with rfl | ⟨ct, e, rfl⟩
    · simp at hfive
    · exact ⟨ct, e, by simp⟩
  rw [List.length_append, List.length_singleton] at hsize hfive
  have hct : ct ≠ [] := by
    rintro rfl
    simp at hfive
  have hsize' : expectedRequestSize c = ct.length + 4 := by omega
  obtain ⟨h, hfeed⟩ := feed_expectedSize (e := e) hidle hsize'
  rw [hfeed]
  by_cases he : e = FRAME_END
  · subst he
    have hopen := openFrame_hCmd (m.receiving _ h).link.frame.handshakeDone c ct hct
    obtain ⟨d, hparse⟩ := tryParse_of_ok (m := m.receiving _ h) hopen
    by_cases hcs : OpenedFrame.recvCs ⟨hCmd c, true, nivonaRc4WithMasterKey ct⟩ =
        OpenedFrame.expectCs ⟨hCmd c, true, nivonaRc4WithMasterKey ct⟩
    · rw [if_neg (by simpa using hcs)] at hparse
      rw [hparse, List.dropLast_concat]
      exact .inl ⟨(recvCs_eq_expectCs_iff hct rfl).mp hcs, d, h, rfl⟩
    · rw [if_pos hcs] at hparse
      rw [hparse]
      exact .inr ⟨fun hvalid => hcs ((recvCs_eq_expectCs_iff hct rfl).mpr hvalid), d, h, rfl⟩
  · have hopen := openFrame_badMarker (m.receiving _ h).link.frame.handshakeDone c he hct
    obtain ⟨d, hparse⟩ := tryParse_of_error (m := m.receiving _ h) hopen
    rw [hparse]
    right
    refine ⟨?_, d, h, rfl⟩
    rintro ⟨hlast, -⟩
    rw [List.getLast?_concat, Option.some.injEq] at hlast
    exact he hlast

/-! ## One changed byte -/

/-- The sum of the bytes of a list. -/
theorem foldl_add_eq (s : UInt8) (bs : List UInt8) :
    bs.foldl (fun s b => s + b) s = s + bs.foldl (fun s b => s + b) 0 := by
  induction bs generalizing s with
  | nil => simp
  | cons b bs ih =>
      rw [List.foldl_cons, List.foldl_cons, ih (s + b), ih (0 + b), UInt8.zero_add,
        UInt8.add_assoc]

/-- The checksum detects every change of one byte. -/
theorem checksum_set_ne {bs : List UInt8} {i : ℕ} {b : UInt8} (hi : i < bs.length)
    (hb : b ≠ bs[i]) : checksum (bs.set i b) ≠ checksum bs := by
  have hsplit : bs = bs.take i ++ bs[i] :: bs.drop (i + 1) := by simp
  have hset : bs.set i b = bs.take i ++ b :: bs.drop (i + 1) := by
    rw [List.set_eq_take_append_cons_drop, if_pos hi]
  intro hsame
  rw [checksum, checksum, UInt8.not_inj, hset] at hsame
  conv at hsame => rhs; rw [hsplit]
  rw [List.foldl_append, List.foldl_append, List.foldl_cons, List.foldl_cons, foldl_add_eq,
    foldl_add_eq (_ + bs[i]), UInt8.add_left_inj, UInt8.add_right_inj] at hsame
  exact hb hsame

/-- A changed byte of ciphertext is one changed byte of plaintext. -/
theorem nivonaRc4WithMasterKey_set (ct : List UInt8) (i : ℕ) (b : UInt8) :
    nivonaRc4WithMasterKey (ct.set i b) =
      (nivonaRc4WithMasterKey ct).set i (b ^^^ masterKeyByte i) := by
  apply List.ext_getElem?
  intro n
  rw [getElem?_nivonaRc4WithMasterKey, List.getElem?_set, List.getElem?_set,
    length_nivonaRc4WithMasterKey, getElem?_nivonaRc4WithMasterKey]
  split
  · rename_i hn
    subst hn
    split <;> simp
  · rfl

/-- One changed byte before the end marker makes a valid tail invalid. -/
theorem not_validTail_set {c : UInt8} {rest : List UInt8} (hvalid : ValidTail c rest) {i : ℕ}
    {b : UInt8} (hi : i + 1 < rest.length) (hb : b ≠ rest[i]) :
    ¬ValidTail c (rest.set i b) := by
  obtain ⟨ct, e, rfl⟩ : ∃ ct e, rest = ct ++ [e] := by
    rcases List.eq_nil_or_concat rest with rfl | ⟨ct, e, rfl⟩
    · simp at hi
    · exact ⟨ct, e, by simp⟩
  have hct : i < ct.length := by simpa using hi
  rw [List.getElem_append_left hct] at hb
  rw [List.set_append_left _ _ hct]
  simp only [ValidTail, List.dropLast_concat] at hvalid ⊢
  rw [nivonaRc4WithMasterKey_set]
  -- on the plaintext, the same position changes
  generalize hplain : nivonaRc4WithMasterKey ct = plain at hvalid ⊢
  have hlen : plain.length = ct.length := by
    rw [← hplain, length_nivonaRc4WithMasterKey]
  have hb' : b ^^^ masterKeyByte i ≠ plain[i] := by
    have hget : plain[i] = ct[i] ^^^ masterKeyByte i := by
      have h := getElem?_nivonaRc4WithMasterKey ct i
      rw [hplain, List.getElem?_eq_getElem hct, List.getElem?_eq_getElem (by omega)] at h
      simpa using h
    rw [hget]
    intro h
    exact hb (by simpa [xor_cancel] using congrArg (· ^^^ masterKeyByte i) h)
  generalize b ^^^ masterKeyByte i = b' at hb' ⊢
  obtain ⟨body, cs, rfl⟩ : ∃ body cs, plain = body ++ [cs] := by
    rcases List.eq_nil_or_concat plain with rfl | ⟨body, cs, rfl⟩
    · simp at hlen
      omega
    · exact ⟨body, cs, by simp⟩
  obtain ⟨-, hcs⟩ := hvalid
  rw [List.getLast?_concat, List.dropLast_concat, Option.some.injEq] at hcs
  rintro ⟨-, hnew⟩
  by_cases hbody : i < body.length
  · -- the sum changes
    rw [List.getElem_append_left hbody] at hb'
    rw [List.set_append_left _ _ hbody, List.getLast?_concat, List.dropLast_concat,
      Option.some.injEq, hcs] at hnew
    have hsum : checksum ((hCmd c ++ body).set (i + 2) b') ≠ checksum (hCmd c ++ body) :=
      checksum_set_ne (by simp [hCmd]; omega) (by simpa [hCmd] using hb')
    exact hsum (by simpa [hCmd] using hnew.symm)
  · -- the checksum itself changes
    have hlast : i = body.length := by
      simp only [List.length_append, List.length_singleton] at hlen
      omega
    subst hlast
    rw [List.getElem_concat_length rfl] at hb'
    rw [List.set_append_right _ _ le_rfl, Nat.sub_self, List.set_cons_zero,
      List.getLast?_concat, List.dropLast_concat, Option.some.injEq, ← hcs] at hnew
    exact hb' hnew

/-! ## The result -/

/-- Bytes of the length of a fixed-size request are dispatched exactly when end
marker and checksum are right, and otherwise rejected; the parser ends idle.  A
valid frame is rejected when one byte between command and end marker changes. -/
theorem fixedSize_dispatched_iff (m : Machine) (hidle : m.link.frame.inFrame = false)
    (c : UInt8) (rest : List UInt8) (hpos : 0 < expectedRequestSize c)
    (hsize : rest.length + 3 = expectedRequestSize c) :
    let p := FRAME_START :: 0x48 :: c :: rest
    ((∃ cmd payload, dispatches (nivonaFrameFeed m p).link.calls =
        dispatches m.link.calls ++ [(cmd, payload)]) ↔ ValidTail c rest) ∧
    (¬ValidTail c rest → Rejected m (nivonaFrameFeed m p)) ∧
    ParserIdle (nivonaFrameFeed m p) ∧
    (ValidTail c rest → ∀ (i : ℕ) (b : UInt8), 3 ≤ i → i + 1 < p.length → p[i]? ≠ some b →
      Rejected m (nivonaFrameFeed m (p.set i b)) ∧
        ParserIdle (nivonaFrameFeed m (p.set i b))) := by
  have hreject {rest : List UInt8} (hsize : rest.length + 3 = expectedRequestSize c)
      (hbad : ¬ValidTail c rest) :
      Rejected m (nivonaFrameFeed m (FRAME_START :: 0x48 :: c :: rest)) ∧
        ParserIdle (nivonaFrameFeed m (FRAME_START :: 0x48 :: c :: rest)) := by
    rcases feed_expectedSize_cases hidle hsize hpos with ⟨hvalid, -⟩ | ⟨-, d, h, hfeed⟩
    · exact absurd hvalid hbad
    · rw [hfeed]
      exact ⟨⟨rfl, rfl, rfl, rfl, rfl⟩, parserIdle_closeFrame _⟩
  refine ⟨⟨?_, ?_⟩, fun hbad => (hreject hsize hbad).1, ?_, ?_⟩
  · rintro ⟨cmd, payload, hcalls⟩
    by_contra hbad
    rw [(hreject hsize hbad).1.calls] at hcalls
    simp at hcalls
  · intro hvalid
    rcases feed_expectedSize_cases hidle hsize hpos with ⟨-, d, h, hfeed⟩ | ⟨hbad, -⟩
    · rw [hfeed, closeFrame_calls, dispatches_nivonaDispatch]
      exact ⟨_, _, rfl⟩
    · exact absurd hvalid hbad
  · rcases feed_expectedSize_cases hidle hsize hpos with ⟨-, d, h, hfeed⟩ | ⟨-, d, h, hfeed⟩
    · rw [hfeed]
      exact parserIdle_closeFrame _
    · rw [hfeed]
      exact parserIdle_closeFrame _
  · intro hvalid i b hi hlast hb
    obtain ⟨j, rfl⟩ := Nat.exists_eq_add_of_le' hi
    simp only [List.length_cons] at hlast
    have hj : j + 1 < rest.length := by omega
    simp only [List.set_cons_succ, List.getElem?_cons_succ] at hb ⊢
    rw [List.getElem?_eq_getElem (by omega), ne_eq, Option.some.injEq] at hb
    exact hreject (by rw [List.length_set]; exact hsize)
      (not_validTail_set hvalid hj (Ne.symm hb))

/-- A status request in a session, as it is and with one changed byte. -/
theorem fixedSize_dispatched_status :
    (∃ cmd payload, dispatches (nivonaFrameFeed Machine.factoryFresh
        (FRAME_START :: 0x48 :: 0x58 :: [0x0D, 0xFC, 0x18, 0x45])).link.calls =
      dispatches Machine.factoryFresh.link.calls ++ [(cmd, payload)]) ∧
    Rejected Machine.factoryFresh (nivonaFrameFeed Machine.factoryFresh
      ((FRAME_START :: 0x48 :: 0x58 :: [0x0D, 0xFC, 0x18, 0x45]).set 4 0xFD)) := by
  have hvalid : ValidTail 0x58 [0x0D, 0xFC, 0x18, 0x45] := by
    refine ⟨rfl, ?_⟩
    rw [show [0x0D, 0xFC, 0x18, 0x45].dropLast = [0x0D, 0xFC, (0x18 : UInt8)] from rfl,
      nivonaRc4WithMasterKey_three]
    decide
  have h := fixedSize_dispatched_iff Machine.factoryFresh rfl 0x58 [0x0D, 0xFC, 0x18, 0x45]
    (by decide) (by decide)
  exact ⟨h.1.mpr hvalid,
    (h.2.2.2 hvalid 4 0xFD (by decide) (by decide) (by decide)).1⟩

end Nivona
