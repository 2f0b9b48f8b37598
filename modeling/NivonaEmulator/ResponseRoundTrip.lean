import NivonaEmulator.Session

/-!
# Response round trip

What `nivona_frame_send` emits is one frame in pieces of at most twenty bytes,
and the client decodes the frame back to command and body.  The bodies of the
status and register replies decode to the values they were packed from.
-/

namespace Nivona

/-! ## What the client unpacks -/

namespace Client

/-- `struct.unpack(">h", …)` on the first two bytes. -/
def int16 (bs : List UInt8) : ℤ := Int.bmod (BigEndian.value (bs.take 2)) (256 ^ 2)

/-- `struct.unpack(">i", …)` on the first four bytes. -/
def int32 (bs : List UInt8) : ℤ := Int.bmod (BigEndian.value (bs.take 4)) (256 ^ 4)

/-- `struct.unpack(">hhBBh", …)`. -/
def unpackStatus : List UInt8 → Option (ℤ × ℤ × UInt8 × UInt8 × ℤ)
  | [p0, p1, s0, s1, info, manipulation, g0, g1] =>
      some (int16 [p0, p1], int16 [s0, s1], info, manipulation, int16 [g0, g1])
  | _ => none

theorem int16_putBe16_append (v : Int16) (rest : List UInt8) :
    int16 (putBe16 v ++ rest) = v.toInt := by
  have hlow := v.le_toInt
  have hhigh := v.toInt_lt
  have htake : (putBe16 v ++ rest).take 2 = putBe16 v := List.take_left' (length_putBe16 v)
  unfold int16
  rw [htake, putBe16]
  exact BigEndian.bmod_value_bytes (k := 2) (by omega) (by omega)

theorem int32_putBe32 (v : Int32) : int32 (putBe32 v) = v.toInt := by
  have hlow := v.le_toInt
  have hhigh := v.toInt_lt
  unfold int32
  rw [List.take_of_length_le (by simp), putBe32]
  exact BigEndian.bmod_value_bytes (k := 4) (by omega) (by omega)

/-- The client reads back the packed status. -/
theorem unpackStatus_nivonaFsmPackStatus (s : Status) :
    unpackStatus (nivonaFsmPackStatus s) =
      some (s.process.toInt, s.subProcess.toInt, s.info, s.manipulation, s.progress.toInt) := by
  have hint (v : Int16) : int16 (putBe16 v) = v.toInt := by
    simpa using int16_putBe16_append v []
  calc
    unpackStatus (nivonaFsmPackStatus s) =
        some (int16 (putBe16 s.process), int16 (putBe16 s.subProcess), s.info,
          s.manipulation, int16 (putBe16 s.progress)) := rfl
    _ = _ := by rw [hint, hint, hint]

end Client

/-! ## One frame in pieces -/

/-- What was sent after `l` are non-empty pieces of at most twenty bytes, which
the client decodes to the command and the body. -/
def Link.Answers (l l' : Link) (cmd : Cmd) (encrypt : Bool) (body : List UInt8) : Prop :=
  ∃ pieces : List (List UInt8), notifies l'.calls = notifies l.calls ++ pieces ∧
    (∀ piece ∈ pieces, piece ≠ [] ∧ piece.length ≤ BLE_MTU) ∧
    ∀ keyPrefixLen, Client.parseFrame cmd.length encrypt keyPrefixLen pieces.flatten =
      some (cmd, body.drop keyPrefixLen)

theorem length_frameOf (cmd : Cmd) (body : List UInt8) (encrypt : Bool) :
    (frameOf cmd body encrypt).length = cmd.length + body.length + 3 := by
  have htail : (frameTail cmd body encrypt).length = body.length + 1 := by
    cases encrypt <;> simp [frameTail]
  simp only [frameOf, List.length_cons, List.length_append, htail, List.length_nil]
  omega

/-- The two checks of `nivona_frame_send`, in terms of the frame. -/
theorem frameSendChunks_eq (l : Link) (cmd : Cmd) (payload : List UInt8)
    (includeKeyPrefix encrypt : Bool) :
    frameSendChunks l cmd payload includeKeyPrefix encrypt =
      if (cmd.length = 1 ∨ cmd.length = 2) ∧
          (frameOf cmd (sendPrefix l includeKeyPrefix ++ payload) encrypt).length ≤
            MAX_FRAME_BYTES then
        Chunks.chunks BLE_MTU (frameOf cmd (sendPrefix l includeKeyPrefix ++ payload) encrypt)
      else [] := by
  have hlen := length_frameOf cmd (sendPrefix l includeKeyPrefix ++ payload) encrypt
  rw [List.length_append] at hlen
  simp only [frameSendChunks]
  by_cases hcmd : cmd.length = 1 ∨ cmd.length = 2
  · rw [if_neg (by omega)]
    by_cases hsize : MAX_FRAME_BYTES < 1 + cmd.length + (sendPrefix l includeKeyPrefix).length +
        payload.length + 1 + 1
    · rw [if_pos hsize, if_neg (by omega)]
    · rw [if_neg hsize, if_pos ⟨hcmd, by omega⟩]
  · rw [if_pos (by omega), if_neg (fun h => hcmd h.1)]

/-- A frame that fits is emitted and decodes. -/
theorem answers_nivonaFrameSend (l : Link) {cmd : Cmd} {payload : List UInt8}
    {includeKeyPrefix encrypt : Bool} (hcmd : cmd.length = 1 ∨ cmd.length = 2)
    (hsize : (frameOf cmd (sendPrefix l includeKeyPrefix ++ payload) encrypt).length ≤
      MAX_FRAME_BYTES) :
    l.Answers (nivonaFrameSend l cmd payload includeKeyPrefix encrypt) cmd encrypt
      (sendPrefix l includeKeyPrefix ++ payload) := by
  have hmtu : 0 < BLE_MTU := by decide
  refine ⟨Chunks.chunks BLE_MTU
    (frameOf cmd (sendPrefix l includeKeyPrefix ++ payload) encrypt), ?_,
    fun piece hmem => Chunks.mem_chunks hmtu hmem, ?_⟩
  · rw [nivonaFrameSend_calls, notifies_append, notifies_map_notify, frameSendChunks_eq,
      if_pos ⟨hcmd, hsize⟩]
  · intro k
    rw [Chunks.flatten_chunks hmtu, Client.parseFrame_frameOf]

/-- Anything else is dropped without a trace. -/
theorem nivonaFrameSend_of_not_fits (l : Link) {cmd : Cmd} {payload : List UInt8}
    {includeKeyPrefix encrypt : Bool}
    (h : ¬((cmd.length = 1 ∨ cmd.length = 2) ∧
      (frameOf cmd (sendPrefix l includeKeyPrefix ++ payload) encrypt).length ≤
        MAX_FRAME_BYTES)) :
    nivonaFrameSend l cmd payload includeKeyPrefix encrypt = l := by
  rw [nivonaFrameSend, frameSendChunks_eq, if_neg h, List.foldl_nil]

/-! ## Replies -/

/-- Counting and recording do not disturb what was sent. -/
theorem Link.Answers.congr {l l' k k' : Link} {cmd : Cmd} {encrypt : Bool} {body : List UInt8}
    (h : l.Answers l' cmd encrypt body) (hbefore : notifies k.calls = notifies l.calls)
    (hafter : k'.calls = l'.calls) : k.Answers k' cmd encrypt body := by
  obtain ⟨pieces, hpieces, hrest⟩ := h
  exact ⟨pieces, by rw [hafter, hpieces, hbefore], hrest⟩

/-- A reply with a short body goes out as one frame. -/
theorem answers_sendResponse (m : Machine) {cmd : Cmd} {payload : List UInt8}
    (hcmd : cmd.length = 2) (hsize : payload.length ≤ 507) :
    m.link.Answers (sendResponse m cmd payload).link cmd true payload := by
  apply answers_nivonaFrameSend m.link (.inr hcmd)
  rw [length_frameOf, hcmd, MAX_FRAME_BYTES]
  simp only [sendPrefix, Bool.false_and, Bool.false_eq_true, if_false, List.nil_append]
  omega

/-- So does an acknowledgement, which has no body. -/
theorem answers_sendAck (m : Machine) : m.link.Answers (sendAck m).link CMD_ACK false [] := by
  apply answers_nivonaFrameSend m.link (.inl rfl)
  rw [length_frameOf]
  simp [sendPrefix, CMD_ACK, MAX_FRAME_BYTES]

theorem requestId_putBe16_append (id : Int16) (rest : List UInt8) :
    requestId (putBe16 id ++ rest) = id := by
  rw [requestId, if_pos (by simp), be16I_putBe16_append]

/-- The body of a status reply. -/
theorem answers_dispatch_hx (m : Machine) (req : List UInt8) :
    m.link.Answers (nivonaDispatch m CMD_READ_STATUS req).link CMD_READ_STATUS true
      (nivonaFsmPackStatus m.core.status) := by
  let m' : Machine :=
    { m with link := { m.link with calls := m.link.calls ++ [Call.dispatch CMD_READ_STATUS req] } }
  have hhandler : nivonaDispatch m CMD_READ_STATUS req = handleHx m' := by
    rw [nivonaDispatch, dispatchHandler, if_neg (by decide), if_pos rfl]
  have hsent : m'.link.Answers (sendResponse m' CMD_READ_STATUS (nivonaFsmPackStatus
      m.core.status)).link CMD_READ_STATUS true (nivonaFsmPackStatus m.core.status) :=
    answers_sendResponse m' rfl (by simp)
  have hcalls : (handleHx m').link.calls =
      (sendResponse m' CMD_READ_STATUS (nivonaFsmPackStatus m.core.status)).link.calls := by
    rw [handleHx]
  rw [hhandler]
  exact hsent.congr (by simp [m']) hcalls

/-- The body of a numerical register reply. -/
theorem answers_dispatch_hr (m : Machine) (req : List UInt8) :
    m.link.Answers (nivonaDispatch m CMD_READ_NUMERICAL req).link CMD_READ_NUMERICAL true
      (putBe16 (requestId req) ++
        putBe32 (nivonaStoreGetNum m.core.device.toStorage (requestId req))) :=
  (answers_sendResponse
    { m with link := { m.link with
      calls := m.link.calls ++ [Call.dispatch CMD_READ_NUMERICAL req] } }
    rfl (by simp)).congr (by simp) rfl

/-- The body of an alphanumeric register reply. -/
theorem answers_dispatch_ha (m : Machine) (req : List UInt8) :
    m.link.Answers (nivonaDispatch m CMD_READ_ALPHA req).link CMD_READ_ALPHA true
      (putBe16 (requestId req) ++ zeroPadded NIVONA_ALPHA_MAX
        (nivonaStoreGetAlpha m.core.device.toStorage (requestId req) NIVONA_ALPHA_MAX)) :=
  (answers_sendResponse
    { m with link := { m.link with calls := m.link.calls ++ [Call.dispatch CMD_READ_ALPHA req] } }
    rfl (by simp [NIVONA_ALPHA_MAX])).congr (by simp) rfl

theorem length_nivonaStoreGetAlpha_le (s : Storage) (id : Int16) (max : ℕ) :
    (nivonaStoreGetAlpha s id max).length ≤ max := by
  rw [nivonaStoreGetAlpha]
  split
  · exact List.length_take_le _ _
  · exact Nat.zero_le _

/-! ## The result -/

/-- Whatever fits a frame reaches the client as it was sent, in pieces of at
most twenty bytes, and nothing else is emitted; status, numerical and
alphanumeric replies decode to what they report. -/
theorem response_roundtrip (m : Machine) :
    (∀ (cmd : Cmd) (payload : List UInt8) (includeKeyPrefix encrypt : Bool),
      let body := sendPrefix m.link includeKeyPrefix ++ payload
      if (cmd.length = 1 ∨ cmd.length = 2) ∧
          (frameOf cmd body encrypt).length ≤ MAX_FRAME_BYTES then
        m.link.Answers (nivonaFrameSend m.link cmd payload includeKeyPrefix encrypt) cmd
          encrypt body
      else nivonaFrameSend m.link cmd payload includeKeyPrefix encrypt = m.link) ∧
    (∀ req : List UInt8, ∃ body,
      m.link.Answers (nivonaDispatch m CMD_READ_STATUS req).link CMD_READ_STATUS true body ∧
      Client.unpackStatus body = some (m.core.status.process.toInt,
        m.core.status.subProcess.toInt, m.core.status.info, m.core.status.manipulation,
        m.core.status.progress.toInt)) ∧
    (∀ (id : Int16) (rest : List UInt8), ∃ body,
      m.link.Answers (nivonaDispatch m CMD_READ_NUMERICAL (putBe16 id ++ rest)).link
        CMD_READ_NUMERICAL true body ∧
      body.length = 6 ∧ Client.int16 body = id.toInt ∧
      Client.int32 (body.drop 2) = (nivonaStoreGetNum m.core.device.toStorage id).toInt) ∧
    ∀ (id : Int16) (rest : List UInt8), ∃ body,
      m.link.Answers (nivonaDispatch m CMD_READ_ALPHA (putBe16 id ++ rest)).link
        CMD_READ_ALPHA true body ∧
      Client.int16 body = id.toInt ∧
      let data := nivonaStoreGetAlpha m.core.device.toStorage id NIVONA_ALPHA_MAX
      data.length ≤ 64 ∧ body.drop 2 = data ++ List.replicate (64 - data.length) 0 := by
  have hdrop (v : Int16) (bs : List UInt8) : (putBe16 v ++ bs).drop 2 = bs :=
    List.drop_left' (length_putBe16 v)
  refine ⟨?_, ?_, ?_, ?_⟩
  · intro cmd payload includeKeyPrefix encrypt
    dsimp only
    split
    · rename_i h
      exact answers_nivonaFrameSend m.link h.1 h.2
    · rename_i h
      exact nivonaFrameSend_of_not_fits m.link h
  · intro req
    exact ⟨_, answers_dispatch_hx m req, Client.unpackStatus_nivonaFsmPackStatus _⟩
  · intro id rest
    have h := answers_dispatch_hr m (putBe16 id ++ rest)
    rw [requestId_putBe16_append] at h
    refine ⟨_, h, by simp, Client.int16_putBe16_append id _, ?_⟩
    rw [hdrop, Client.int32_putBe32]
  · intro id rest
    have h := answers_dispatch_ha m (putBe16 id ++ rest)
    rw [requestId_putBe16_append] at h
    have hlen := length_nivonaStoreGetAlpha_le m.core.device.toStorage id NIVONA_ALPHA_MAX
    refine ⟨_, h, Client.int16_putBe16_append id _, hlen, ?_⟩
    rw [hdrop, zeroPadded, List.take_of_length_le hlen]
    rfl

end Nivona
