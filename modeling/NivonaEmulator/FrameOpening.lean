import NivonaEmulator.Receive

/-!
# Opening the frames that `frameOf` builds

`tryParse` accepts exactly the byte strings `frameOf` produces, so the received
frames that reach the dispatcher are described by a command and a body.
-/

namespace Nivona

/-! ## Encrypted frames -/

/-- Command of the encrypted frames, `H` and one more byte. -/
def hCmd (c : UInt8) : Cmd := [0x48, c]

/-- Ciphertext of a body under a command. -/
def cipherBody (cmd : Cmd) (body : List UInt8) : List UInt8 :=
  nivonaRc4WithMasterKey (body ++ [checksum (cmd ++ body)])

@[simp] theorem length_cipherBody (cmd : Cmd) (body : List UInt8) :
    (cipherBody cmd body).length = body.length + 1 := by
  simp [cipherBody]

theorem frameOf_hCmd (c : UInt8) (body : List UInt8) :
    frameOf (hCmd c) body true =
      FRAME_START :: 0x48 :: c :: (cipherBody (hCmd c) body ++ [FRAME_END]) := rfl

@[simp] theorem length_frameOf_hCmd (c : UInt8) (body : List UInt8) :
    (frameOf (hCmd c) body true).length = body.length + 5 := by
  simp [frameOf_hCmd]

/-- What opening the frame of a body gives back. -/
def openedOf (c : UInt8) (body : List UInt8) : OpenedFrame :=
  { cmd := hCmd c, encrypted := true, plain := body ++ [checksum (hCmd c ++ body)] }

@[simp] theorem openedOf_payload (c : UInt8) (body : List UInt8) :
    (openedOf c body).payload = body := by
  simp [openedOf, OpenedFrame.payload]

@[simp] theorem openedOf_recvCs (c : UInt8) (body : List UInt8) :
    (openedOf c body).recvCs = checksum (hCmd c ++ body) := by
  simp [openedOf, OpenedFrame.recvCs]

@[simp] theorem openedOf_expectCs (c : UInt8) (body : List UInt8) :
    (openedOf c body).expectCs = checksum (hCmd c ++ body) := by
  rw [OpenedFrame.expectCs, openedOf_payload]
  rfl

/-- A five-byte or longer frame with an `H` command opens to its decrypted
middle part. -/
theorem openFrame_hCmd (hd : Bool) (c : UInt8) (ct : List UInt8) (hct : ct ≠ []) :
    openFrame hd (FRAME_START :: 0x48 :: c :: (ct ++ [FRAME_END])) =
      .ok { cmd := hCmd c, encrypted := true, plain := nivonaRc4WithMasterKey ct } := by
  have hpos : 0 < ct.length := List.length_pos_iff.mpr hct
  have hlast : (FRAME_START :: 0x48 :: c :: (ct ++ [FRAME_END])).getLastD 0 = FRAME_END :=
    @List.getLastD_concat _ _ _ (FRAME_START :: 0x48 :: c :: ct)
  have hmid : ((FRAME_START :: 0x48 :: c :: (ct ++ [FRAME_END])).drop 1).take
      ((FRAME_START :: 0x48 :: c :: (ct ++ [FRAME_END])).length - 2) = 0x48 :: c :: ct := by
    simp
  have hdata : ((FRAME_START :: 0x48 :: c :: (ct ++ [FRAME_END])).drop (1 + 2)).take
      ((FRAME_START :: 0x48 :: c :: (ct ++ [FRAME_END])).length - 1 - (1 + 2)) = ct := by
    simp
  rw [openFrame, if_neg (by simp), if_neg (by rw [hlast]; simp), hmid]
  have hinfo : cmdInfo hd (0x48 :: c :: ct) = some (2, true) := by
    simp [cmdInfo]
  rw [hinfo]
  dsimp only
  rw [if_neg (by simp; omega), hdata]
  rfl

/-- Opening undoes building. -/
theorem openFrame_frameOf (hd : Bool) (c : UInt8) (body : List UInt8) :
    openFrame hd (frameOf (hCmd c) body true) = .ok (openedOf c body) := by
  have hne : cipherBody (hCmd c) body ≠ [] := by
    rw [← List.length_pos_iff, length_cipherBody]
    omega
  rw [frameOf_hCmd, openFrame_hCmd hd c _ hne]
  simp [openedOf, cipherBody]

/-- What an accepted frame looks like: start marker, command, body, end marker. -/
theorem openFrame_ok {hd : Bool} {p : List UInt8} {o : OpenedFrame}
    (h : openFrame hd p = .ok o) :
    (∃ c ct, ct ≠ [] ∧ p = FRAME_START :: 0x48 :: c :: (ct ++ [FRAME_END]) ∧
      o = { cmd := hCmd c, encrypted := true, plain := nivonaRc4WithMasterKey ct }) ∨
    (∃ a data, hd = false ∧ (a = 0x41 ∨ a = 0x4E) ∧ data ≠ [] ∧
      p = FRAME_START :: a :: (data ++ [FRAME_END]) ∧
      o = { cmd := [a], encrypted := false, plain := data }) := by
  rw [openFrame] at h
  split at h
  · cases h
  rename_i hlen
  split at h
  · cases h
  rename_i hmark
  rw [not_or, not_not, not_not] at hmark
  -- split the received bytes at the two markers
  obtain ⟨s, mid, e, rfl⟩ : ∃ s mid e, p = s :: (mid ++ [e]) := by
    cases p with
    | nil => simp at hlen
    | cons s rest =>
        rcases List.eq_nil_or_concat rest with rfl | ⟨mid, e, rfl⟩
        · simp at hlen
        · exact ⟨s, mid, e, by simp⟩
  obtain ⟨hs, he⟩ := hmark
  have hs' : s = FRAME_START := by simpa using hs
  have he' : e = FRAME_END := by
    rwa [← List.cons_append, List.getLastD_concat] at he
  subst hs' he'
  have hmid : ((FRAME_START :: (mid ++ [FRAME_END])).drop 1).take
      ((FRAME_START :: (mid ++ [FRAME_END])).length - 2) = mid := by
    simp
  rw [hmid] at h
  cases hinfo : cmdInfo hd mid with
  | none => rw [hinfo] at h; cases h
  | some info =>
      obtain ⟨cmdLen, enc⟩ := info
      rw [hinfo] at h
      dsimp only at h
      cases mid with
      | nil => simp [cmdInfo] at hinfo
      | cons a rest =>
          simp only [cmdInfo] at hinfo
          split at hinfo
          · -- a one-byte command, sent in the clear
            rename_i hack
            simp only [Option.some.injEq, Prod.mk.injEq] at hinfo
            obtain ⟨rfl, rfl⟩ := hinfo
            split at h
            · cases h
            · rename_i hbody
              right
              refine ⟨a, rest, hack.1, hack.2, ?_, by simp, ?_⟩
              · rintro rfl
                simp at hbody
              · simp only [Except.ok.injEq] at h
                rw [← h]
                simp
          · split at hinfo
            · rename_i _ hH
              simp only [Option.some.injEq, Prod.mk.injEq] at hinfo
              obtain ⟨rfl, rfl⟩ := hinfo
              obtain ⟨hrest, rfl⟩ := hH
              cases rest with
              | nil => simp at hrest
              | cons c ct =>
                  split at h
                  · cases h
                  · rename_i hbody
                    left
                    refine ⟨c, ct, ?_, by simp, ?_⟩
                    · rintro rfl
                      simp at hbody
                    · simp only [Except.ok.injEq] at h
                      rw [← h]
                      simp [hCmd]
            · cases hinfo

/-- An encrypted frame whose checksum is right is the frame of its body. -/
theorem eq_frameOf_of_checksum {c : UInt8} {ct : List UInt8} (hct : ct ≠ [])
    {o : OpenedFrame}
    (ho : o = { cmd := hCmd c, encrypted := true, plain := nivonaRc4WithMasterKey ct })
    (hcs : o.recvCs = o.expectCs) :
    FRAME_START :: 0x48 :: c :: (ct ++ [FRAME_END]) = frameOf (hCmd c) o.payload true ∧
      o = openedOf c o.payload := by
  have hplain : o.payload ++ [checksum (hCmd c ++ o.payload)] = nivonaRc4WithMasterKey ct := by
    have hne : nivonaRc4WithMasterKey ct ≠ [] := by
      rw [← List.length_pos_iff, length_nivonaRc4WithMasterKey]
      exact List.length_pos_iff.mpr hct
    have hlast : (nivonaRc4WithMasterKey ct).getLast hne = checksum (hCmd c ++ o.payload) := by
      rw [OpenedFrame.recvCs, OpenedFrame.expectCs, List.getLastD_eq_getLast?] at hcs
      subst ho
      rw [List.getLast?_eq_some_getLast hne] at hcs
      exact hcs
    rw [← hlast]
    subst ho
    exact List.dropLast_append_getLast hne
  constructor
  · rw [frameOf_hCmd, cipherBody, hplain, nivonaRc4WithMasterKey_involutive]
  · rw [openedOf, hplain]
    exact ho

/-! ## Parsing -/

/-- The diagnostic record does not matter to what a frame does. -/
def Machine.withDiag (m : Machine) (d : Diag) : Machine :=
  { m with link := { m.link with diag := d } }

@[simp] theorem Machine.withDiag_core (m : Machine) (d : Diag) :
    (m.withDiag d).core = m.core := rfl

@[simp] theorem Machine.withDiag_frame (m : Machine) (d : Diag) :
    (m.withDiag d).link.frame = m.link.frame := rfl

@[simp] theorem Machine.withDiag_calls (m : Machine) (d : Diag) :
    (m.withDiag d).link.calls = m.link.calls := rfl

@[simp] theorem Machine.withDiag_randomKeys (m : Machine) (d : Diag) :
    (m.withDiag d).link.randomKeys = m.link.randomKeys := rfl

/-- The counters and captures after a frame that opens. -/
def Diag.openedBy (d : Diag) (f : Frame) (o : OpenedFrame) : Diag :=
  let d := { d with
    tryParseCalled := d.tryParseCalled + 1
    lastDecrypt := captureDecrypt f o
    lastRecvCs := o.recvCs
    lastExpectCs := o.expectCs }
  if o.recvCs ≠ o.expectCs then { d with csMismatch := d.csMismatch + 1 }
  else { d with frameParsed := d.frameParsed + 1 }

/-- The counters after one that does not. -/
def Diag.refusedBy (d : Diag) : OpenError → Diag
  | .unknownCmd =>
      { d with tryParseCalled := d.tryParseCalled + 1, unknownCmd := d.unknownCmd + 1 }
  | _ => { d with tryParseCalled := d.tryParseCalled + 1 }

/-- A frame that opens is dispatched when its checksum is right, and dropped
otherwise. -/
theorem tryParse_ok {m : Machine} {o : OpenedFrame}
    (h : openFrame m.link.frame.handshakeDone m.link.frame.buf = .ok o) :
    tryParse m =
      if o.recvCs ≠ o.expectCs then m.withDiag (m.link.diag.openedBy m.link.frame o)
      else nivonaDispatch (m.withDiag (m.link.diag.openedBy m.link.frame o)) o.cmd
        (stripPrefix m.link.frame o.encrypted o.payload) := by
  simp only [tryParse, Machine.onDiag]
  rw [h]
  dsimp only
  by_cases hcs : o.recvCs ≠ o.expectCs
  · rw [if_pos hcs, if_pos hcs, Diag.openedBy, if_pos hcs]
    rfl
  · rw [if_neg hcs, if_neg hcs, Diag.openedBy, if_neg hcs]
    rfl

theorem tryParse_error {m : Machine} {e : OpenError}
    (h : openFrame m.link.frame.handshakeDone m.link.frame.buf = .error e) :
    tryParse m = m.withDiag (m.link.diag.refusedBy e) := by
  simp only [tryParse, Machine.onDiag]
  rw [h]
  cases e <;> rfl

theorem tryParse_of_ok {m : Machine} {o : OpenedFrame}
    (h : openFrame m.link.frame.handshakeDone m.link.frame.buf = .ok o) :
    ∃ d, tryParse m =
      if o.recvCs ≠ o.expectCs then m.withDiag d
      else nivonaDispatch (m.withDiag d) o.cmd
        (stripPrefix m.link.frame o.encrypted o.payload) :=
  ⟨_, tryParse_ok h⟩

theorem tryParse_of_error {m : Machine} {e : OpenError}
    (h : openFrame m.link.frame.handshakeDone m.link.frame.buf = .error e) :
    ∃ d, tryParse m = m.withDiag d :=
  ⟨_, tryParse_error h⟩

/-- The frame of a body is dispatched, whatever the session. -/
theorem tryParse_frameOf {m : Machine} {c : UInt8} {body : List UInt8}
    (h : m.link.frame.buf = frameOf (hCmd c) body true) :
    ∃ d, tryParse m =
      nivonaDispatch (m.withDiag d) (hCmd c) (stripPrefix m.link.frame true body) := by
  have hopen := openFrame_frameOf m.link.frame.handshakeDone c body
  rw [← h] at hopen
  obtain ⟨d, hd⟩ := tryParse_of_ok hopen
  refine ⟨d, ?_⟩
  rw [hd, if_neg (by simp), openedOf_payload]
  rfl

/-- Everything `tryParse` can do. -/
theorem tryParse_cases (m : Machine) :
    ∃ d, tryParse m = m.withDiag d ∨
      (∃ c body, m.link.frame.buf = frameOf (hCmd c) body true ∧
        tryParse m =
          nivonaDispatch (m.withDiag d) (hCmd c) (stripPrefix m.link.frame true body)) ∨
      (∃ a payload, m.link.frame.handshakeDone = false ∧ (a = 0x41 ∨ a = 0x4E) ∧
        tryParse m = nivonaDispatch (m.withDiag d) [a] payload) := by
  cases hopen : openFrame m.link.frame.handshakeDone m.link.frame.buf with
  | error e =>
      obtain ⟨d, hd⟩ := tryParse_of_error hopen
      exact ⟨d, Or.inl hd⟩
  | ok o =>
      obtain ⟨d, hd⟩ := tryParse_of_ok hopen
      refine ⟨d, ?_⟩
      by_cases hcs : o.recvCs = o.expectCs
      · rw [if_neg (by simpa using hcs)] at hd
        right
        rcases openFrame_ok hopen with ⟨c, ct, hct, hbuf, ho⟩ | ⟨a, data, hdone, ha, -, -, ho⟩
        · left
          obtain ⟨hframe, hopened⟩ := eq_frameOf_of_checksum hct ho hcs
          refine ⟨c, o.payload, hbuf.trans hframe, ?_⟩
          rw [hd, hopened, openedOf_payload]
          rfl
        · right
          refine ⟨a, o.payload, hdone, ha, ?_⟩
          rw [hd, ho]
          simp [stripPrefix]
      · left
        rw [hd, if_pos hcs]

end Nivona
